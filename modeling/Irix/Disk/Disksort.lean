import Irix.Lib.Links

/-! # Seek sort for disks

The activity chain holds two queues in ascending cylinder order: the requests at or after the cylinder
of the first one, and behind them those which came in after their cylinder was passed.
-/

namespace Irix.Disk

open Function Lib Lib.Links

/-- The activity chain of a `struct iobuf`, and the fields of the buffers. -/
structure Iobuf (Buf : Type) where
  bActf : Option Buf
  bActl : Option Buf
  avForw : Buf → Option Buf
  bCyl : Buf → BitVec 16

section

variable {Buf : Type}

/-- The cylinder as a short. -/
def Iobuf.cyl (dp : Iobuf Buf) (bp : Buf) : Int := (dp.bCyl bp).toInt

/-- Search the second request list for the first request at a larger cylinder number. -/
def searchSecond (dp : Iobuf Buf) (bp : Buf) : Nat → Buf → Option Buf
  | 0, _ => none
  | fuel + 1, ap =>
    match dp.avForw ap with
    | none => some ap
    | some next => if dp.cyl bp < dp.cyl next then some ap else searchSecond dp bp fuel next

/-- Check for an inversion, which is where the second request list starts. -/
def searchInversion (dp : Iobuf Buf) (bp : Buf) : Nat → Buf → Option Buf
  | 0, _ => none
  | fuel + 1, ap =>
    match dp.avForw ap with
    | none => some ap
    | some next =>
      if dp.cyl next < dp.cyl ap then searchSecond dp bp (fuel + 1) ap
      else searchInversion dp bp fuel next

/-- Sort in the first request list. -/
def searchFirst (dp : Iobuf Buf) (bp : Buf) : Nat → Buf → Option Buf
  | 0, _ => none
  | fuel + 1, ap =>
    match dp.avForw ap with
    | none => some ap
    | some next =>
      if dp.cyl next < dp.cyl ap ∨ dp.cyl bp < dp.cyl next then some ap
      else searchFirst dp bp fuel next

variable [DecidableEq Buf]

/-- At the label `insert`. -/
def Iobuf.insert (dp : Iobuf Buf) (bp ap : Buf) : Iobuf Buf :=
  { dp with
    avForw := update (update dp.avForw bp (dp.avForw ap)) ap (some bp)
    bActl := if dp.bActl = some ap then some bp else dp.bActl }

/-- `none` where the fuel is used up. -/
def disksort (fuel : Nat) (dp : Iobuf Buf) (bp : Buf) : Option (Iobuf Buf) :=
  match dp.bActf with
  | none => some { dp with bActf := some bp, bActl := some bp, avForw := update dp.avForw bp none }
  | some ap =>
    if dp.cyl bp < dp.cyl ap then (searchInversion dp bp fuel ap).map (dp.insert bp)
    else (searchFirst dp bp fuel ap).map (dp.insert bp)

/-- What the drivers do when the first request is done. -/
def Iobuf.advance (dp : Iobuf Buf) : Iobuf Buf :=
  match dp.bActf with
  | none => dp
  | some bp => { dp with bActf := dp.avForw bp }

end

/-! ## The two request lists -/

section

variable {Buf : Type} {dp dp' : Iobuf Buf} {bp ap : Buf} {first second : List Buf} {fuel : Nat}

def Ascending (dp : Iobuf Buf) (l : List Buf) : Prop := l.Pairwise fun a b => dp.cyl a ≤ dp.cyl b

/-- Every request of the second list is below the cylinder of the first request of all. -/
structure TwoRuns (dp : Iobuf Buf) (first second : List Buf) : Prop where
  up : Ascending dp first
  again : Ascending dp second
  below : ∀ h ∈ first.head?, ∀ b ∈ second, dp.cyl b < dp.cyl h
  /-- The first list is not the empty one. -/
  ahead : second ≠ [] → first ≠ []

theorem Ascending.tail {b : Buf} {l : List Buf} (ascending : Ascending dp (b :: l)) : Ascending dp l :=
  (List.pairwise_cons.mp ascending).2

/-- Where a request goes that is as far as `l` and before the rest. -/
theorem Ascending.insert {l l' : List Buf} (ascending : Ascending dp (l ++ l'))
    (before : ∀ b ∈ l, dp.cyl b ≤ dp.cyl bp) (behind : ∀ b ∈ l'.head?, dp.cyl bp < dp.cyl b) :
    Ascending dp (l ++ bp :: l') := by
  obtain ⟨left, right, across⟩ := List.pairwise_append.mp ascending
  have larger : ∀ b ∈ l', dp.cyl bp ≤ dp.cyl b := by
    cases l' with
    | nil => simp
    | cons c l' =>
        have least := behind c rfl
        intro b listed
        rcases List.mem_cons.mp listed with rfl | later
        · exact Int.le_of_lt least
        · have step := (List.pairwise_cons.mp right).1 b later
          omega
  refine List.pairwise_append.mpr ⟨left, List.pairwise_cons.mpr ⟨larger, right⟩, fun a inside b listed => ?_⟩
  rcases List.mem_cons.mp listed with rfl | later
  · exact before a inside
  · exact across a inside b later

theorem searchSecond_spec (path : Path dp.avForw (some ap) (ap :: second)) (ascending : Ascending dp second)
    (enough : second.length < fuel) :
    ∃ l l', second = l ++ l' ∧ searchSecond dp bp fuel ap = (ap :: l).getLast? ∧
      (∀ b ∈ l, dp.cyl b ≤ dp.cyl bp) ∧ ∀ b ∈ l'.head?, dp.cyl bp < dp.cyl b := by
  induction fuel generalizing ap second with
  | zero => exact absurd enough (Nat.not_lt_zero _)
  | succ fuel ih =>
      rw [searchSecond]
      cases second with
      | nil =>
          have link : dp.avForw ap = none := path.2
          refine ⟨[], [], rfl, ?_, by simp, by simp⟩
          simp only [link, List.getLast?_singleton]
      | cons next rest =>
          have link : dp.avForw ap = some next := path.2.1
          simp only [link]
          split
          next larger =>
            refine ⟨[], next :: rest, rfl, rfl, by simp, ?_⟩
            intro b first
            obtain rfl : next = b := Option.some.inj first
            exact larger
          next reached =>
            have further : Path dp.avForw (some next) (next :: rest) := ⟨rfl, path.2.2⟩
            obtain ⟨l, l', rfl, found, before, behind⟩ :=
              ih further ascending.tail (Nat.lt_of_succ_lt_succ enough)
            refine ⟨next :: l, l', rfl, ?_, ?_, behind⟩
            · rw [found, List.getLast?_cons_cons]
            · exact List.forall_mem_cons.mpr ⟨Int.not_lt.mp reached, before⟩

variable (bp) in
theorem searchInversion_spec (path : Path dp.avForw (some ap) (ap :: first ++ second))
    (ascending : Ascending dp (ap :: first)) (ascending' : Ascending dp second)
    (below : ∀ b ∈ second, dp.cyl b < dp.cyl ap) (enough : (first ++ second).length < fuel) :
    ∃ l l', second = l ++ l' ∧ searchInversion dp bp fuel ap = (ap :: first ++ l).getLast? ∧
      (∀ b ∈ l, dp.cyl b ≤ dp.cyl bp) ∧ ∀ b ∈ l'.head?, dp.cyl bp < dp.cyl b := by
  induction fuel generalizing ap first with
  | zero => exact absurd enough (Nat.not_lt_zero _)
  | succ fuel ih =>
      rw [searchInversion]
      cases first with
      | nil =>
          cases second with
          | nil =>
              have link : dp.avForw ap = none := path.2
              refine ⟨[], [], rfl, ?_, by simp, by simp⟩
              simp only [link, List.append_nil, List.getLast?_singleton]
          | cons next rest =>
              have link : dp.avForw ap = some next := path.2.1
              simp only [link, below next (List.mem_cons_self ..), if_true]
              exact searchSecond_spec path ascending' enough
      | cons next first =>
          have link : dp.avForw ap = some next := path.2.1
          have up := (List.pairwise_cons.mp ascending).1 next (List.mem_cons_self ..)
          have further : Path dp.avForw (some next) (next :: first ++ second) := ⟨rfl, path.2.2⟩
          simp only [link, Int.not_lt.mpr up, if_false]
          obtain ⟨l, l', split, found, rest⟩ := ih further ascending.tail
            (fun b listed => Int.lt_of_lt_of_le (below b listed) up) (Nat.lt_of_succ_lt_succ enough)
          refine ⟨l, l', split, ?_, rest⟩
          rw [found, List.cons_append, List.cons_append, List.cons_append, List.getLast?_cons_cons]

theorem searchFirst_spec (path : Path dp.avForw (some ap) (ap :: first ++ second))
    (ascending : Ascending dp (ap :: first)) (below : ∀ b ∈ second, dp.cyl b < dp.cyl ap)
    (reached : dp.cyl ap ≤ dp.cyl bp) (enough : (first ++ second).length < fuel) :
    ∃ l l', first = l ++ l' ∧ searchFirst dp bp fuel ap = (ap :: l).getLast? ∧
      (∀ b ∈ ap :: l, dp.cyl b ≤ dp.cyl bp) ∧ ∀ b ∈ l'.head?, dp.cyl bp < dp.cyl b := by
  have here : ∀ b ∈ [ap], dp.cyl b ≤ dp.cyl bp := by
    intro b listed
    rwa [List.mem_singleton.mp listed]
  induction fuel generalizing ap first with
  | zero => exact absurd enough (Nat.not_lt_zero _)
  | succ fuel ih =>
      rw [searchFirst]
      cases first with
      | nil =>
          refine ⟨[], [], rfl, ?_, here, by simp⟩
          cases second with
          | nil =>
              have link : dp.avForw ap = none := path.2
              simp only [link, List.getLast?_singleton]
          | cons next rest =>
              have link : dp.avForw ap = some next := path.2.1
              simp only [link, below next (List.mem_cons_self ..), true_or, if_true,
                List.getLast?_singleton]
      | cons next first =>
          have link : dp.avForw ap = some next := path.2.1
          have up := (List.pairwise_cons.mp ascending).1 next (List.mem_cons_self ..)
          simp only [link, Int.not_lt.mpr up, false_or]
          split
          next larger =>
            refine ⟨[], next :: first, rfl, rfl, here, ?_⟩
            intro b head
            obtain rfl : next = b := Option.some.inj head
            exact larger
          next smaller =>
            have further : Path dp.avForw (some next) (next :: first ++ second) := ⟨rfl, path.2.2⟩
            have reached' := Int.not_lt.mp smaller
            obtain ⟨l, l', rfl, found, before, behind⟩ := ih further ascending.tail
              (fun b listed => Int.lt_of_lt_of_le (below b listed) up) reached' (Nat.lt_of_succ_lt_succ enough)
              (by simpa using reached')
            refine ⟨next :: l, l', rfl, ?_, ?_, behind⟩
            · rw [found, List.getLast?_cons_cons]
            · exact List.forall_mem_cons.mpr ⟨reached, before⟩

/-! ## Requests come and go -/

/-- The chain as it should be, first list and second list. -/
structure Sorted (dp : Iobuf Buf) (first second : List Buf) : Prop where
  path : Path dp.avForw dp.bActf (first ++ second)
  runs : TwoRuns dp first second
  last : first ++ second ≠ [] → dp.bActl = (first ++ second).getLast?

theorem Ascending.congr {l : List Buf} (ascending : Ascending dp l)
    (same : ∀ b ∈ l, dp'.cyl b = dp.cyl b) : Ascending dp' l := by
  refine List.Pairwise.imp_of_mem ?_ ascending
  intro a b inside inside' le
  rwa [same a inside, same b inside']

theorem TwoRuns.congr (runs : TwoRuns dp first second) (same : ∀ b ∈ first ++ second, dp'.cyl b = dp.cyl b) :
    TwoRuns dp' first second := by
  have same₁ : ∀ b ∈ first, dp'.cyl b = dp.cyl b := fun b listed => same b (List.mem_append_left _ listed)
  have same₂ : ∀ b ∈ second, dp'.cyl b = dp.cyl b := fun b listed => same b (List.mem_append_right _ listed)
  refine ⟨runs.up.congr same₁, runs.again.congr same₂, fun h head b listed => ?_, runs.ahead⟩
  rw [same₁ h (List.mem_of_mem_head? head), same₂ b listed]
  exact runs.below h head b listed

theorem behind_perm {z : Buf} {pre post : List Buf} :
    (pre ++ z :: bp :: post).Perm (bp :: (pre ++ z :: post)) := by
  have moved := @List.perm_middle _ bp (pre ++ [z]) post
  rwa [List.append_assoc, List.append_assoc] at moved

section

variable [DecidableEq Buf]

/-- A request is linked behind `z`. -/
theorem insert_path {z : Buf} {pre post : List Buf} (path : Path dp.avForw dp.bActf (pre ++ z :: post))
    (last : dp.bActl = (pre ++ z :: post).getLast?) (fresh : bp ∉ pre ++ z :: post) :
    Path (dp.insert bp z).avForw dp.bActf (pre ++ z :: bp :: post) ∧
      (dp.insert bp z).bActl = (pre ++ z :: bp :: post).getLast? := by
  refine ⟨path.link fresh, ?_⟩
  have nodup := path.nodup
  simp only [Iobuf.insert, last]
  cases post with
  | nil => simp
  | cons c post =>
      have other : z ∉ c :: post := (List.nodup_cons.mp (List.nodup_append.mp nodup).2.1).1
      have unlike : (pre ++ z :: c :: post).getLast? ≠ some z := by
        rw [List.getLast?_append_of_ne_nil _ (by simp), List.getLast?_cons_cons]
        exact fun same => other (List.mem_of_getLast? same)
      rw [if_neg unlike]
      simp

theorem Sorted.disksort (sorted : Sorted dp first second) (fresh : bp ∉ first ++ second)
    (enough : (first ++ second).length < fuel) :
    ∃ dp' first' second', disksort fuel dp bp = some dp' ∧ Sorted dp' first' second' ∧
      (first' ++ second').Perm (bp :: (first ++ second)) ∧
      (first ++ second ≠ [] → dp'.bActf = dp.bActf) := by
  obtain ⟨path, runs, last⟩ := sorted
  rw [Disk.disksort]
  cases first with
  | nil =>
      obtain rfl : second = [] := by
        by_contra some
        exact runs.ahead some rfl
      have head : dp.bActf = none := path
      simp only [head]
      refine ⟨_, [bp], [], rfl, ⟨?_, ?_, fun _ => rfl⟩, List.Perm.refl _, fun some => absurd rfl some⟩
      · exact ⟨rfl, update_self ..⟩
      · exact ⟨List.pairwise_singleton .., List.Pairwise.nil, by simp, by simp⟩
  | cons ap first =>
      have head : dp.bActf = some ap := path.1
      have below : ∀ b ∈ second, dp.cyl b < dp.cyl ap := runs.below ap rfl
      have tail := last (by simp)
      have from' : Path dp.avForw (some ap) (ap :: first ++ second) := head ▸ path
      have few : (first ++ second).length < fuel := Nat.lt_of_succ_lt enough
      simp only [head]
      split
      next passed =>
        obtain ⟨l, l', rfl, found, before, behind⟩ :=
          searchInversion_spec bp from' runs.up runs.again below few
        -- the request goes behind the last one of the first list and `l`
        obtain ⟨z, place⟩ : ∃ z, (ap :: first ++ l).getLast? = some z := ⟨_, List.getLast?_cons ..⟩
        obtain ⟨pre, split⟩ := List.getLast?_eq_some_iff.mp place
        have whole : (ap :: first) ++ (l ++ l') = pre ++ z :: l' := by
          rw [← List.append_assoc, split, List.append_assoc, List.singleton_append]
        rw [whole] at path tail fresh
        obtain ⟨path', last'⟩ := insert_path path tail fresh
        have whole' : (ap :: first) ++ (l ++ bp :: l') = pre ++ z :: bp :: l' := by
          rw [← List.append_assoc, split, List.append_assoc, List.singleton_append]
        refine ⟨dp.insert bp z, ap :: first, l ++ bp :: l', ?_, ⟨?_, ?_, ?_⟩, ?_, fun _ => head⟩
        · rw [found, place, Option.map_some]
        · rwa [whole']
        · refine TwoRuns.congr ⟨runs.up, runs.again.insert before behind, ?_, by simp⟩ fun _ _ => rfl
          intro h first' b listed
          obtain rfl : ap = h := Option.some.inj first'
          rcases List.mem_append.mp listed with front | rear
          · exact below b (List.mem_append_left _ front)
          · rcases List.mem_cons.mp rear with rfl | rear
            · exact passed
            · exact below b (List.mem_append_right _ rear)
        · intro _
          rwa [whole']
        · rw [whole, whole']
          exact behind_perm
      next reached =>
        obtain ⟨l, l', rfl, found, before, behind⟩ :=
          searchFirst_spec from' runs.up below (Int.not_lt.mp reached) few
        obtain ⟨z, place⟩ : ∃ z, (ap :: l).getLast? = some z := ⟨_, List.getLast?_cons ..⟩
        obtain ⟨pre, split⟩ := List.getLast?_eq_some_iff.mp place
        have whole : (ap :: (l ++ l')) ++ second = pre ++ z :: (l' ++ second) := by
          rw [← List.cons_append, split, List.append_assoc, List.append_assoc, List.singleton_append]
        rw [whole] at path tail fresh
        obtain ⟨path', last'⟩ := insert_path path tail fresh
        have whole' : (ap :: (l ++ bp :: l')) ++ second = pre ++ z :: bp :: (l' ++ second) := by
          rw [← List.cons_append, split, List.append_assoc, List.append_assoc, List.singleton_append,
            List.cons_append]
        have up : Ascending dp ((ap :: l) ++ l') := runs.up
        refine ⟨dp.insert bp z, ap :: (l ++ bp :: l'), second, ?_, ⟨?_, ?_, ?_⟩, ?_, fun _ => head⟩
        · rw [found, place, Option.map_some]
        · rwa [whole']
        · exact TwoRuns.congr ⟨up.insert before behind, runs.again, runs.below, by simp⟩ fun _ _ => rfl
        · intro _
          rwa [whole']
        · rw [whole, whole']
          exact behind_perm

end

/-- When the first list is done, the second one becomes the first. -/
theorem Sorted.advance (sorted : Sorted dp (ap :: first) second) :
    ∃ first' second', Sorted dp.advance first' second' ∧ first' ++ second' = first ++ second := by
  obtain ⟨path, runs, last⟩ := sorted
  have head : dp.bActf = some ap := path.1
  have ended := last (by simp)
  have rest : Path dp.avForw dp.advance.bActf (first ++ second) := by
    rw [Iobuf.advance, head]
    exact path.2
  have links : dp.advance.avForw = dp.avForw ∧ dp.advance.bCyl = dp.bCyl ∧ dp.advance.bActl = dp.bActl := by
    rw [Iobuf.advance, head]
    exact ⟨rfl, rfl, rfl⟩
  have cyl : ∀ b, dp.advance.cyl b = dp.cyl b := fun b => congrArg (fun f => (f b).toInt) links.2.1
  have last' : ∀ l : List Buf, ap :: l = (ap :: first) ++ second → l ≠ [] →
      dp.advance.bActl = l.getLast? := by
    intro l whole some
    obtain ⟨b, l, rfl⟩ := List.exists_cons_of_ne_nil some
    rw [links.2.2, ended, ← whole, List.getLast?_cons_cons]
  cases first with
  | nil =>
      refine ⟨second, [], ⟨?_, ?_, ?_⟩, by simp⟩
      · rw [links.1, List.append_nil]
        exact rest
      · exact TwoRuns.congr ⟨runs.again, List.Pairwise.nil, by simp, by simp⟩ fun b _ => cyl b
      · intro some
        rw [List.append_nil] at some ⊢
        exact last' second rfl some
  | cons next first =>
      refine ⟨next :: first, second, ⟨?_, ?_, ?_⟩, rfl⟩
      · rw [links.1]
        exact rest
      · refine TwoRuns.congr ⟨runs.up.tail, runs.again, ?_, by simp⟩ fun b _ => cyl b
        intro h first' b listed
        obtain rfl : next = h := Option.some.inj first'
        have step := (List.pairwise_cons.mp runs.up).1 next (List.mem_cons_self ..)
        exact Int.lt_of_lt_of_le (runs.below ap rfl b listed) step
      · intro _
        exact last' _ rfl (by simp)

/-- The states of a queue, with the requests that came in and have not been removed. -/
inductive Reached [DecidableEq Buf] : Iobuf Buf → List Buf → Prop where
  | start (dp : Iobuf Buf) (empty : dp.bActf = none) : Reached dp []
  /-- A driver calls `disksort` with a buffer that is not in the queue. -/
  | insert {dp dp' : Iobuf Buf} {pending : List Buf} {fuel : Nat} {bp : Buf} (reached : Reached dp pending)
      (fresh : bp ∉ pending) (ran : disksort fuel dp bp = some dp') : Reached dp' (bp :: pending)
  | remove {dp : Iobuf Buf} {pending : List Buf} {bp : Buf} (reached : Reached dp pending)
      (head : dp.bActf = some bp) : Reached dp.advance (pending.erase bp)
  /-- Other buffers are used for something else, or made into requests. -/
  | other {dp : Iobuf Buf} {pending : List Buf} (avForw : Buf → Option Buf) (bCyl : Buf → BitVec 16)
      (reached : Reached dp pending)
      (same : ∀ b ∈ pending, avForw b = dp.avForw b ∧ bCyl b = dp.bCyl b) :
      Reached { dp with avForw := avForw, bCyl := bCyl } pending

variable [DecidableEq Buf] {pending : List Buf}

omit [DecidableEq Buf] in
theorem searchSecond_mono {fuel' : Nat} {z : Buf} (ran : searchSecond dp bp fuel ap = some z)
    (more : fuel ≤ fuel') : searchSecond dp bp fuel' ap = some z := by
  induction fuel generalizing ap fuel' with
  | zero => cases ran
  | succ fuel ih =>
      obtain ⟨fuel', rfl⟩ : ∃ k, fuel' = k + 1 := ⟨fuel' - 1, by omega⟩
      rw [searchSecond] at ran ⊢
      grind

omit [DecidableEq Buf] in
theorem searchInversion_mono {fuel' : Nat} {z : Buf} (ran : searchInversion dp bp fuel ap = some z)
    (more : fuel ≤ fuel') : searchInversion dp bp fuel' ap = some z := by
  induction fuel generalizing ap fuel' with
  | zero => cases ran
  | succ fuel ih =>
      obtain ⟨fuel', rfl⟩ : ∃ k, fuel' = k + 1 := ⟨fuel' - 1, by omega⟩
      rw [searchInversion] at ran ⊢
      grind [searchSecond_mono]

omit [DecidableEq Buf] in
theorem searchFirst_mono {fuel' : Nat} {z : Buf} (ran : searchFirst dp bp fuel ap = some z)
    (more : fuel ≤ fuel') : searchFirst dp bp fuel' ap = some z := by
  induction fuel generalizing ap fuel' with
  | zero => cases ran
  | succ fuel ih =>
      obtain ⟨fuel', rfl⟩ : ∃ k, fuel' = k + 1 := ⟨fuel' - 1, by omega⟩
      rw [searchFirst] at ran ⊢
      grind

theorem disksort_mono {fuel' : Nat} (ran : disksort fuel dp bp = some dp') (more : fuel ≤ fuel') :
    disksort fuel' dp bp = some dp' := by
  rw [disksort] at ran ⊢
  split at ran
  next => exact ran
  next ap head =>
    split at ran
    next passed =>
      obtain ⟨z, found, same⟩ := Option.map_eq_some_iff.mp ran
      simp only [passed, if_true, searchInversion_mono found more, Option.map_some, same]
    next reached =>
      obtain ⟨z, found, same⟩ := Option.map_eq_some_iff.mp ran
      simp only [reached, if_false, searchFirst_mono found more, Option.map_some, same]

theorem Reached.sorted (reached : Reached dp pending) :
    ∃ first second, Sorted dp first second ∧ (first ++ second).Perm pending := by
  induction reached with
  | start dp empty =>
      refine ⟨[], [], ⟨empty, ⟨?_, ?_, by simp, by simp⟩, fun some => absurd rfl some⟩, List.Perm.refl _⟩
      · exact List.Pairwise.nil
      · exact List.Pairwise.nil
  | @insert dp dp' pending fuel bp reached fresh ran ih =>
      obtain ⟨first, second, sorted, perm⟩ := ih
      have fresh' : bp ∉ first ++ second := fun listed => fresh (perm.mem_iff.mp listed)
      obtain ⟨dp'', first', second', ran', sorted', perm', -⟩ :=
        sorted.disksort fresh' (Nat.lt_of_lt_of_le (Nat.lt_succ_self _) (Nat.le_max_left _ fuel))
      have same := ran'.symm.trans (disksort_mono ran (Nat.le_max_right ..))
      obtain rfl := Option.some.inj same
      exact ⟨first', second', sorted', perm'.trans (perm.cons bp)⟩
  | @remove dp pending bp reached head ih =>
      obtain ⟨first, second, sorted, perm⟩ := ih
      cases first with
      | nil =>
          obtain rfl : second = [] := by
            by_contra some
            exact sorted.runs.ahead some rfl
          have none : dp.bActf = none := sorted.path
          rw [none] at head
          cases head
      | cons ap first =>
          have same : some bp = some ap := head.symm.trans sorted.path.1
          obtain rfl := Option.some.inj same
          obtain ⟨first', second', sorted', whole⟩ := sorted.advance
          refine ⟨first', second', sorted', ?_⟩
          rw [whole]
          simpa using perm.erase bp
  | @other dp pending avForw bCyl reached same ih =>
      obtain ⟨first, second, ⟨path, runs, last⟩, perm⟩ := ih
      have here : ∀ b ∈ first ++ second, avForw b = dp.avForw b ∧ bCyl b = dp.bCyl b :=
        fun b listed => same b (perm.mem_iff.mp listed)
      refine ⟨first, second, ⟨path.congr fun b listed => (here b listed).1, runs.congr ?_, last⟩, perm⟩
      exact fun b listed => congrArg BitVec.toInt (here b listed).2

/-- The chain holds the requests that have not been removed in two ascending runs with its end in
    `bActl`, and an insertion comes to an end and leaves the first request where it is. -/
theorem disksort_elevator (reached : Reached dp pending) :
    ∃ first second, Path dp.avForw dp.bActf (first ++ second) ∧ (first ++ second).Perm pending ∧
      TwoRuns dp first second ∧ (first ++ second ≠ [] → dp.bActl = (first ++ second).getLast?) ∧
      ∀ bp ∉ pending, ∃ dp', (∀ fuel > pending.length, disksort fuel dp bp = some dp') ∧
        (pending ≠ [] → dp'.bActf = dp.bActf) := by
  obtain ⟨first, second, sorted, perm⟩ := reached.sorted
  refine ⟨first, second, sorted.path, perm, sorted.runs, sorted.last, fun bp fresh => ?_⟩
  have fresh' : bp ∉ first ++ second := fun listed => fresh (perm.mem_iff.mp listed)
  have least : (first ++ second).length < pending.length + 1 := Nat.lt_succ_of_le (Nat.le_of_eq perm.length_eq)
  obtain ⟨dp', first', second', ran, -, -, still⟩ := sorted.disksort fresh' least
  refine ⟨dp', fun fuel more => disksort_mono ran more, fun some => still ?_⟩
  rintro empty
  rw [empty] at perm
  exact some perm.nil_eq.symm

/-- A driver can always call `disksort`. -/
theorem Reached.more (reached : Reached dp pending) (fresh : bp ∉ pending) :
    ∃ dp', Reached dp' (bp :: pending) := by
  obtain ⟨first, second, sorted, perm⟩ := reached.sorted
  have fresh' : bp ∉ first ++ second := fun listed => fresh (perm.mem_iff.mp listed)
  obtain ⟨dp', -, -, ran, -⟩ := sorted.disksort fresh' (Nat.lt_succ_self _)
  exact ⟨dp', .insert reached fresh ran⟩

/-- Requests for cylinders 5, 2 and 7. -/
def three : Iobuf (Fin 3) := ⟨none, none, fun _ => none, fun b => if b = 0 then 5 else if b = 1 then 2 else 7⟩

theorem disksort_elevator_three : ∃ dp : Iobuf (Fin 3), ∃ first second,
    Path dp.avForw dp.bActf (first ++ second) ∧ (first ++ second).Perm [2, 1, 0] ∧ TwoRuns dp first second ∧
      (first ++ second ≠ [] → dp.bActl = (first ++ second).getLast?) ∧
      ∀ bp ∉ [(2 : Fin 3), 1, 0], ∃ dp', (∀ fuel > [(2 : Fin 3), 1, 0].length, disksort fuel dp bp = some dp') ∧
        ([(2 : Fin 3), 1, 0] ≠ [] → dp'.bActf = dp.bActf) := by
  obtain ⟨_, one⟩ := (Reached.start three rfl).more (by decide : (0 : Fin 3) ∉ [])
  obtain ⟨_, two⟩ := one.more (by decide : (1 : Fin 3) ∉ [0])
  obtain ⟨dp, all⟩ := two.more (by decide : (2 : Fin 3) ∉ [1, 0])
  exact ⟨dp, disksort_elevator all⟩

end

end Irix.Disk
