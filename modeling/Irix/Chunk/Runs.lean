import Irix.Chunk.Safety

/-! # Calls that do not get in each other's way

The bits of a run are set after the search for it, and the frame of a page is
entered after the test whether it has one.  A run that a call has found is its
own, and so is a page it gets a frame for, as long as no other call finds or
tests the same in between.
-/

namespace Irix.Chunk

open Lib Lib.Run Function

/-! ## The condition -/

/-- The run that the body of the loop takes of `foundlen` clear bits. -/
def Call.taken (c : Call) (addr foundlen : Nat) : Option Nat :=
  if foundlen ≥ c.len then
    let remainder := CPPG - chunkToOffset addr
    if c.how && remainder ≠ CPPG then
      if (foundlen : Int) - remainder < c.len then none else some (addr + remainder)
    else some addr
  else none

/-- The chunks that a call has found and not yet marked: the first one, and how many. -/
def Call.pending (c : Call) : Nat × Nat :=
  match c.phase with
  | .found addr _ .bftstclr foundlen =>
    match c.taken addr foundlen with
    | some a => (a, c.len)
    | none => (0, 0)
  | .mark addr k => (addr + k, c.len - k)
  | _ => (0, 0)

/-- A chunk that a call is about to mark. -/
def Call.Pends (c : Call) (x : Nat) : Prop :=
  c.pending.1 ≤ x ∧ x < c.pending.1 + c.pending.2

instance (c : Call) (x : Nat) : Decidable (c.Pends x) := by
  unfold Call.Pends
  infer_instance

/-- The page that a call gets a frame for. -/
def Call.awaits (c : Call) : Option Nat :=
  match c.phase with
  | .want addr seen | .gotten addr seen => some (chunkToPage addr + seen.length)
  | _ => none

/-- The page whose entry has the frame of a call that is still in `vmemall`. -/
def Call.gets (c : Call) : Option Nat :=
  match c.phase with
  | .gotten addr seen => some (chunkToPage addr + seen.length)
  | _ => none

namespace State

/-- The run that the next step of a call finds, if it does so. -/
def finds (s : State) (c : Call) : Option Nat :=
  match c.phase with
  | .scan addr maxlen .bftstclr =>
    if maxlen ≥ c.len then
      c.taken addr (Kind.test .bftstclr s.bitmap addr (c.remainder maxlen .bftstclr))
    else none
  | _ => none

/-- The page that the next step of a call finds without a frame, if it does so. -/
def lacks (s : State) (c : Call) : Option Nat :=
  match c.phase with
  | .assign addr seen =>
    if seen.length < c.pages addr ∧ (s.pt (chunkToPage addr + seen.length)).v = false then
      some (chunkToPage addr + seen.length)
    else none
  | _ => none

/-- Call `d` is not about to mark a chunk of the run that the next step of call `c` finds, nor
    does it get a frame for the page that this step finds without one. -/
def Clear (s : State) (c d : Call) : Prop :=
  (∀ a ∈ s.finds c, ∀ i < c.len, ¬d.Pends (a + i)) ∧ ∀ page ∈ s.lacks c, d.awaits ≠ some page

instance (s : State) (c d : Call) : Decidable (s.Clear c d) := by
  unfold Clear
  infer_instance

/-- The run found for an aligned request ends in the pool. -/
def InPool (maxchunks : Nat) (s : State) (c : Call) : Prop :=
  c.how = true → ∀ a ∈ s.finds c, a + c.len ≤ maxchunks

instance (maxchunks : Nat) (s : State) (c : Call) : Decidable (s.InPool maxchunks c) := by
  unfold InPool
  infer_instance

/-- No other call comes between the search for a run and its marking with a run of its own that
    shares a chunk, or between the test of a page and its frame with one of its own for the page;
    an aligned run ends in the pool. -/
def Calm (maxchunks : Nat) (s : State) : Event → Prop
  | .run id _ => s.Runs id → ∀ c ∈ s.calls id, s.InPool maxchunks c ∧
      ∀ other, other ≠ id → ∀ d ∈ s.calls other, s.Clear c d
  | _ => True

end State

section

variable {maxchunks : Nat} {s s' : State} {id : Nat} {c : Call}

/-! ## The search -/

/-- What is taken lies in the clear bits that were found. -/
theorem taken_within {addr foundlen a : Nat} (taken : c.taken addr foundlen = some a) :
    addr ≤ a ∧ a + c.len ≤ addr + foundlen ∧ (c.how = false → a = addr) := by
  simp only [Call.taken] at taken
  split at taken
  · split at taken
    next aligned =>
      split at taken
      · cases taken
      · simp only [Option.some.injEq] at taken
        refine ⟨by omega, by omega, fun plain => ?_⟩
        simp [plain] at aligned
    next =>
      simp only [Option.some.injEq] at taken
      exact ⟨by omega, by omega, fun _ => taken.symm⟩
  · cases taken

theorem taken_goto {phase : Phase} {addr foundlen : Nat} :
    Call.taken { c with phase := phase } addr foundlen = c.taken addr foundlen := rfl

/-- A search for clear bits ends in a run that is marked, or goes on behind it. -/
theorem look_cases (addr : Nat) (maxlen : Int) (foundlen : Nat) :
    (∃ a, c.taken addr foundlen = some a ∧
        s.look id c addr maxlen .bftstclr foundlen = s.goto id c (.mark a 0)) ∨
      c.taken addr foundlen = none ∧ ∃ n : Nat, ∃ kind,
        s.look id c addr maxlen .bftstclr foundlen = s.goto id c (.scan (addr + n) (maxlen - n) kind) := by
  simp only [State.look, Call.taken]
  split
  · split
    · split
      · exact .inr ⟨rfl, _, _, rfl⟩
      · exact .inl ⟨_, rfl, rfl⟩
    · exact .inl ⟨_, rfl, rfl⟩
  · exact .inr ⟨rfl, _, _, rfl⟩

/-! ## The invariant -/

/-- How far a search has got. -/
def Call.search (c : Call) : Option (Nat × Int) :=
  match c.phase with
  | .scan addr maxlen _ | .found addr maxlen _ _ => some (addr, maxlen)
  | _ => none

/-- What a call has found stays as it has found it, until it takes it. -/
structure Waits (maxchunks : Nat) (s : State) : Prop where
  pool : ∀ i c, s.calls i = some c → ∀ at', c.search = some at' → at'.1 + at'.2 = maxchunks
  clear : ∀ i c x, s.calls i = some c → c.Pends x → s.bitmap x = false ∧ x < maxchunks
  single : ∀ i j c d x, s.calls i = some c → s.calls j = some d → c.Pends x → d.Pends x → i = j
  awaited : ∀ i c page, s.calls i = some c → c.awaits = some page → (s.pt page).v = false
  alone : ∀ i j c d page, s.calls i = some c → s.calls j = some d → c.awaits = some page →
    d.awaits = some page → i = j
  entry : ∀ page, (s.pt page).v = false →
    s.pt page = ⟨0, false⟩ ∨ ∃ i c, s.calls i = some c ∧ c.gets = some page

theorem of_none {α : Type} {p : α → Prop} : ∀ a, none = some a → p a := by
  rintro a ⟨⟩

theorem of_some {α : Type} {p : α → Prop} {a : α} (holds : p a) : ∀ b, some a = some b → p b := by
  rintro b ⟨⟩
  exact holds

theorem gets_awaits {page : Nat} (gets : c.gets = some page) : c.awaits = some page := by
  cases phase : c.phase <;> simp only [Call.gets, Call.awaits, phase] at gets ⊢ <;> simp_all

/-- One call goes on, or ends.  What the others wait for is left alone. -/
theorem Waits.change (waits : Waits maxchunks s) {o : Option Call}
    (calls : s'.calls = update s.calls id o)
    (pool : ∀ c' ∈ o, ∀ at', c'.search = some at' → at'.1 + at'.2 = maxchunks)
    (clear : ∀ c' ∈ o, ∀ x, c'.Pends x → s'.bitmap x = false ∧ x < maxchunks ∧
      ∀ j d, j ≠ id → s.calls j = some d → ¬d.Pends x)
    (others : ∀ j d x, j ≠ id → s.calls j = some d → d.Pends x → s'.bitmap x = false)
    (awaited : ∀ c' ∈ o, ∀ page, c'.awaits = some page → (s'.pt page).v = false ∧
      ∀ j d, j ≠ id → s.calls j = some d → d.awaits ≠ some page)
    (pages : ∀ j d page, j ≠ id → s.calls j = some d → d.awaits = some page →
      (s'.pt page).v = false)
    (entry : ∀ page, (s'.pt page).v = false → s'.pt page = ⟨0, false⟩ ∨
      (∃ c' ∈ o, c'.gets = some page) ∨ ∃ j d, j ≠ id ∧ s.calls j = some d ∧ d.gets = some page) :
    Waits maxchunks s' := by
  have old : ∀ {i d}, s'.calls i = some d → (i = id ∧ d ∈ o) ∨ i ≠ id ∧ s.calls i = some d := by
    intro i d there
    rw [calls] at there
    by_cases same : i = id
    · subst same
      rw [update_self] at there
      exact .inl ⟨rfl, there⟩
    · rw [update_of_ne same] at there
      exact .inr ⟨same, there⟩
  refine ⟨fun i d there at' searches => ?_, fun i d x there pends => ?_,
    fun i j d e x there there' pends pends' => ?_, fun i d page there waiting => ?_,
    fun i j d e page there there' waiting waiting' => ?_, fun page invalid => ?_⟩
  · rcases old there with ⟨-, mine⟩ | ⟨-, there⟩
    · exact pool d mine at' searches
    · exact waits.pool i d there at' searches
  · rcases old there with ⟨-, mine⟩ | ⟨other, there⟩
    · obtain ⟨free, inside, -⟩ := clear d mine x pends
      exact ⟨free, inside⟩
    · exact ⟨others i d x other there pends, (waits.clear i d x there pends).2⟩
  · rcases old there with ⟨rfl, mine⟩ | ⟨other, there⟩ <;>
      rcases old there' with ⟨rfl, mine'⟩ | ⟨other', there'⟩
    · rfl
    · exact absurd pends' ((clear d mine x pends).2.2 j e other' there')
    · exact absurd pends ((clear e mine' x pends').2.2 i d other there)
    · exact waits.single i j d e x there there' pends pends'
  · rcases old there with ⟨-, mine⟩ | ⟨other, there⟩
    · exact (awaited d mine page waiting).1
    · exact pages i d page other there waiting
  · rcases old there with ⟨rfl, mine⟩ | ⟨other, there⟩ <;>
      rcases old there' with ⟨rfl, mine'⟩ | ⟨other', there'⟩
    · rfl
    · exact absurd waiting' ((awaited d mine page waiting).2 j e other' there')
    · exact absurd waiting ((awaited e mine' page waiting').2 i d other there)
    · exact waits.alone i j d e page there there' waiting waiting'
  · rcases entry page invalid with none | ⟨d, mine, gets⟩ | ⟨j, d, other, there, gets⟩
    · exact .inl none
    · refine .inr ⟨id, d, ?_, gets⟩
      rw [calls, update_self]
      exact mine
    · refine .inr ⟨j, d, ?_, gets⟩
      rw [calls, update_of_ne other]
      exact there

/-- A call that neither is about to mark a chunk nor has entered a frame is of no concern to the
    entries. -/
theorem Waits.entries (waits : Waits maxchunks s) (here : s.calls id = some c) (gets : c.gets = none)
    {page : Nat} (invalid : (s.pt page).v = false) :
    s.pt page = ⟨0, false⟩ ∨ ∃ j d, j ≠ id ∧ s.calls j = some d ∧ d.gets = some page := by
  rcases waits.entry page invalid with none | ⟨j, d, there, has⟩
  · exact .inl none
  · refine .inr ⟨j, d, ?_, there, has⟩
    rintro rfl
    rw [here, Option.some.injEq] at there
    rw [← there, gets] at has
    cases has

/-- A call goes on with nothing but its phase changed. -/
theorem Waits.goto (waits : Waits maxchunks s) (here : s.calls id = some c) (gets : c.gets = none)
    {phase : Phase} (calls : s'.calls = update s.calls id (some { c with phase := phase }))
    (bitmap : s'.bitmap = s.bitmap) (pt : s'.pt = s.pt)
    (pool : ∀ at', Call.search { c with phase := phase } = some at' → at'.1 + at'.2 = maxchunks)
    (clear : ∀ x, Call.Pends { c with phase := phase } x → s.bitmap x = false ∧ x < maxchunks ∧
      ∀ j d, j ≠ id → s.calls j = some d → ¬d.Pends x)
    (awaited : ∀ page, Call.awaits { c with phase := phase } = some page →
      (s.pt page).v = false ∧ ∀ j d, j ≠ id → s.calls j = some d → d.awaits ≠ some page) :
    Waits maxchunks s' := by
  refine waits.change calls (of_some pool) (of_some ?_) (fun j d x _ there pends => ?_)
    (of_some ?_) (fun j d page _ there waiting => ?_) (fun page invalid => ?_)
  · rw [bitmap]
    exact clear
  · rw [bitmap]
    exact (waits.clear j d x there pends).1
  · rw [pt]
    exact awaited
  · rw [pt]
    exact waits.awaited j d page there waiting
  · rw [pt] at invalid ⊢
    exact (waits.entries here gets invalid).imp_right .inr

theorem Waits.unlock (waits : Waits maxchunks s) {spl6 : Option Nat} :
    Waits maxchunks { s with spl6 := spl6 } :=
  ⟨waits.pool, waits.clear, waits.single, waits.awaited, waits.alone, waits.entry⟩

theorem Waits.low (waits : Waits maxchunks s) {lowfree : Nat} :
    Waits maxchunks { s with lowfree := lowfree } :=
  ⟨waits.pool, waits.clear, waits.single, waits.awaited, waits.alone, waits.entry⟩

/-! ## Freeing -/

/-- A page is left alone or tossed. -/
theorem tossmem_cases (bitmap : Bits.Map) (addr len page : Nat) (pt : Nat → Pte) :
    tossmem bitmap addr len pt page = pt page ∨ tossmem bitmap addr len pt page = ⟨0, false⟩ := by
  unfold tossmem
  induction chunksToPages (len + chunkToOffset addr) with
  | zero => exact .inl rfl
  | succ n ih =>
    rw [List.range_succ, List.foldl_append]
    simp only [List.foldl_cons, List.foldl_nil]
    split
    · by_cases here : page = chunkToPage addr + n
      · rw [here, update_self]
        exact .inr rfl
      · rw [update_of_ne here]
        exact ih
    · exact ih

theorem Waits.release (waits : Waits maxchunks s) (here : s.calls id = some c) (gets : c.gets = none)
    (addr len : Nat) : Waits maxchunks (s.release id addr len) := by
  refine waits.change rfl of_none of_none (fun j d x _ there pends => ?_) of_none
    (fun j d page _ there waiting => ?_) (fun page invalid => ?_)
  · have free := (waits.clear j d x there pends).1
    simp only [State.release, Bits.fill]
    split
    · rfl
    · exact free
  · simp only [State.release]
    rcases tossmem_cases (Bits.fill false s.bitmap addr len) addr len page s.pt with same | tossed
    · rw [same]
      exact waits.awaited j d page there waiting
    · rw [tossed]
  · simp only [State.release] at invalid ⊢
    rcases tossmem_cases (Bits.fill false s.bitmap addr len) addr len page s.pt with same | tossed
    · rw [same] at invalid ⊢
      exact (waits.entries here gets invalid).imp_right .inr
    · exact .inl tossed

theorem Waits.leave (waits : Waits maxchunks s) (here : s.calls id = some c) (gets : c.gets = none) :
    Waits maxchunks (s.leave id) := by
  refine waits.change rfl of_none of_none (fun j d x _ there pends => ?_) of_none
    (fun j d page _ there waiting => ?_) (fun page invalid => ?_)
  · exact (waits.clear j d x there pends).1
  · exact waits.awaited j d page there waiting
  · exact (waits.entries here gets invalid).imp_right .inr

/-! ## The steps of a call -/

/-- What a call is about to mark is its own. -/
theorem Waits.own (waits : Waits maxchunks s) (here : s.calls id = some c) {x : Nat}
    (pends : c.Pends x) : s.bitmap x = false ∧ x < maxchunks ∧
      ∀ j d, j ≠ id → s.calls j = some d → ¬d.Pends x := by
  obtain ⟨free, inside⟩ := waits.clear id c x here pends
  exact ⟨free, inside, fun j d other there pends' =>
    other (waits.single j id d c x there here pends' pends)⟩

/-- The page that a call waits for is its own. -/
theorem Waits.page (waits : Waits maxchunks s) (here : s.calls id = some c) {page : Nat}
    (waiting : c.awaits = some page) : (s.pt page).v = false ∧
      ∀ j d, j ≠ id → s.calls j = some d → d.awaits ≠ some page :=
  ⟨waits.awaited id c page here waiting, fun j d other there waiting' =>
    other (waits.alone j id d c page there here waiting' waiting)⟩

theorem Waits.scan (waits : Waits maxchunks s) (here : s.calls id = some c) {addr : Nat}
    {maxlen : Int} {kind : Kind} (phase : c.phase = .scan addr maxlen kind) (m : Memory)
    (calm : s.InPool maxchunks c ∧ ∀ other, other ≠ id → ∀ d ∈ s.calls other, s.Clear c d) :
    Waits maxchunks (s.go id c m) := by
  have gets : c.gets = none := by simp only [Call.gets, phase]
  have pool := waits.pool id c here (addr, maxlen) (by simp only [Call.search, phase])
  simp only [State.go, phase]
  split
  next room =>
    refine waits.goto here gets rfl rfl rfl (fun at' searches => ?_) (fun x pends => ?_) of_none
    · simp only [Call.search, Option.some.injEq] at searches
      rw [← searches]
      exact pool
    · cases kind with
      | bftstset =>
        simp only [Call.Pends, Call.pending] at pends
        omega
      | bftstclr =>
        simp only [Call.Pends, Call.pending, taken_goto] at pends
        -- the run is the one that the search finds
        split at pends
        next a taken =>
          have found : s.finds c = some a := by
            simp only [State.finds, phase, if_pos room]
            exact taken
          obtain ⟨low, high, plain⟩ := taken_within taken
          refine ⟨?_, ?_, fun j d other there pends' => ?_⟩
          · have bit := @Bits.run_value false s.bitmap addr (c.remainder maxlen .bftstclr) (x - addr) (by
              simp only [Kind.test] at high
              omega)
            rwa [Nat.add_sub_cancel' (by omega)] at bit
          · cases how : c.how with
            | true =>
              have inside := calm.1 how a found
              omega
            | false =>
              have start := plain how
              simp only at pool
              omega
          · refine (calm.2 j other d there).1 a found (x - a) (by omega) ?_
            rwa [Nat.add_sub_cancel' (by omega)]
        next =>
          simp only at pends
          omega
  next => exact waits.leave here gets

theorem Waits.found (waits : Waits maxchunks s) (here : s.calls id = some c) {addr foundlen : Nat}
    {maxlen : Int} {kind : Kind} (phase : c.phase = .found addr maxlen kind foundlen) (m : Memory) :
    Waits maxchunks (s.go id c m) := by
  have gets : c.gets = none := by simp only [Call.gets, phase]
  have pool := waits.pool id c here (addr, maxlen) (by simp only [Call.search, phase])
  simp only at pool
  have scans : ∀ (s' : State) (n : Nat) (kind : Kind), s'.calls = s.calls → s'.bitmap = s.bitmap →
      s'.pt = s.pt → Waits maxchunks (s'.goto id c (.scan (addr + n) (maxlen - n) kind)) := by
    intro s' n kind calls bitmap pt
    have there : (s'.goto id c (.scan (addr + n) (maxlen - n) kind)).calls =
        update s.calls id (some { c with phase := .scan (addr + n) (maxlen - n) kind }) := by
      rw [State.goto, calls]
    refine waits.goto here gets there bitmap pt (fun at' searches => ?_) (fun x pends => ?_) of_none
    · simp only [Call.search, Option.some.injEq] at searches
      rw [← searches]
      simp only
      omega
    · simp only [Call.Pends, Call.pending] at pends
      omega
  simp only [State.go, phase]
  cases kind with
  | bftstset =>
    simp only [State.look]
    split
    · exact scans _ _ _ rfl rfl rfl
    · exact scans _ _ _ rfl rfl rfl
  | bftstclr =>
    rcases @look_cases s id c addr maxlen foundlen with
      ⟨a, taken, next⟩ | ⟨-, n, kind, next⟩
    · rw [next]
      refine waits.goto here gets rfl rfl rfl of_none (fun x pends => waits.own here ?_) of_none
      simp only [Call.Pends, Call.pending, phase, taken]
      simpa only [Call.Pends, Call.pending, Nat.add_zero, Nat.sub_zero] using pends
    · rw [next]
      exact scans s n kind rfl rfl rfl

theorem Waits.mark (waits : Waits maxchunks s) (here : s.calls id = some c) {addr k : Nat}
    (phase : c.phase = .mark addr k) (m : Memory) : Waits maxchunks (s.go id c m) := by
  have gets : c.gets = none := by simp only [Call.gets, phase]
  simp only [State.go, phase]
  split
  next more =>
    -- the chunk that is marked is of no other call
    have mine := @Waits.own maxchunks s id c waits here (addr + k) (by
      simp only [Call.Pends, Call.pending, phase]
      omega)
    refine waits.change rfl (of_some of_none) (of_some fun x pends => ?_)
      (fun j d x other there pends => ?_) (of_some of_none) (fun j d page _ there waiting => ?_)
      (fun page invalid => ?_)
    · simp only [Call.Pends, Call.pending] at pends
      obtain ⟨free, inside, apart⟩ := @Waits.own maxchunks s id c waits here x (by
        simp only [Call.Pends, Call.pending, phase]
        omega)
      exact ⟨(Bits.fill_outside (by omega)).trans free, inside, apart⟩
    · have other' : x ≠ addr + k := by
        rintro rfl
        exact mine.2.2 j d other there pends
      exact (Bits.fill_outside (by omega)).trans (waits.clear j d x there pends).1
    · exact waits.awaited j d page there waiting
    · exact (waits.entries here gets invalid).imp_right .inr
  next =>
    refine waits.goto here gets rfl rfl rfl of_none (fun x pends => ?_) of_none
    simp only [Call.Pends, Call.pending] at pends
    omega

theorem Waits.assign (waits : Waits maxchunks s) (here : s.calls id = some c) {addr : Nat}
    {seen : List Nat} (phase : c.phase = .assign addr seen) (m : Memory)
    (calm : ∀ other, other ≠ id → ∀ d ∈ s.calls other, s.Clear c d) :
    Waits maxchunks (s.go id c m) := by
  have gets : c.gets = none := by simp only [Call.gets, phase]
  have unmarked : ∀ phase', Call.pending { c with phase := phase' } = (0, 0) →
      ∀ x, Call.Pends { c with phase := phase' } x → s.bitmap x = false ∧ x < maxchunks ∧
        ∀ j d, j ≠ id → s.calls j = some d → ¬d.Pends x := by
    intro phase' none x pends
    rw [Call.Pends, none] at pends
    simp only at pends
    omega
  simp only [State.go, phase]
  split
  next more =>
    split
    next => exact waits.goto here gets rfl rfl rfl of_none (unmarked _ rfl) of_none
    next invalid =>
      refine waits.goto here gets rfl rfl rfl of_none (unmarked _ rfl) fun page waiting => ?_
      simp only [Call.awaits, Option.some.injEq] at waiting
      subst waiting
      have unset : (s.pt (chunkToPage addr + seen.length)).v = false := by simpa using invalid
      refine ⟨unset, fun j d other there => ?_⟩
      refine (calm j other d there).2 _ ?_
      simp only [State.lacks, phase]
      rw [if_pos ⟨more, unset⟩]
      rfl
  next => exact waits.goto here gets rfl rfl rfl of_none (unmarked _ rfl) of_none

theorem Waits.want (waits : Waits maxchunks s) (here : s.calls id = some c) {addr : Nat}
    {seen : List Nat} (phase : c.phase = .want addr seen) (m : Memory) :
    Waits maxchunks (s.go id c m) := by
  have gets : c.gets = none := by simp only [Call.gets, phase]
  simp only [State.go, phase]
  cases m with
  | sleep =>
    dsimp only
    split
    · exact waits.unlock
    · exact waits
  | nothing =>
    dsimp only
    split
    · exact waits
    · exact waits.release here gets addr c.len
  | frame pfnum =>
    have mine := @Waits.page maxchunks s id c waits here (chunkToPage addr + seen.length) (by
      simp only [Call.awaits, phase])
    refine waits.change rfl (of_some of_none) (of_some fun x pends => ?_)
      (fun j d x _ there pends => (waits.clear j d x there pends).1)
      (of_some fun page waiting => ?_) (fun j d page other there waiting => ?_)
      (fun page invalid => ?_)
    · simp only [Call.Pends, Call.pending] at pends
      omega
    · simp only [Call.awaits, Option.some.injEq] at waiting
      subst waiting
      exact ⟨by simp only [update_self], mine.2⟩
    · have other' : page ≠ chunkToPage addr + seen.length := by
        rintro rfl
        exact mine.2 j d other there waiting
      simp only [update_of_ne other']
      exact waits.awaited j d page there waiting
    · by_cases here' : page = chunkToPage addr + seen.length
      · exact .inr (.inl ⟨_, rfl, by simp only [Call.gets, here']⟩)
      · simp only [update_of_ne here'] at invalid ⊢
        exact (waits.entries here gets invalid).imp_right .inr

theorem Waits.gotten (waits : Waits maxchunks s) (here : s.calls id = some c) {addr : Nat}
    {seen : List Nat} (phase : c.phase = .gotten addr seen) (m : Memory) :
    Waits maxchunks (s.go id c m) := by
  have mine := @Waits.page maxchunks s id c waits here (chunkToPage addr + seen.length) (by
    simp only [Call.awaits, phase])
  have finish : Waits maxchunks { s.goto id c (.assign addr
      (seen ++ [(s.pt (chunkToPage addr + seen.length)).pfnum])) with
        pt := update s.pt (chunkToPage addr + seen.length)
          { s.pt (chunkToPage addr + seen.length) with v := true }
        spl6 := some id } := by
    refine waits.change rfl (of_some of_none) (of_some fun x pends => ?_)
      (fun j d x _ there pends => (waits.clear j d x there pends).1) (of_some of_none)
      (fun j d page other there waiting => ?_) (fun page invalid => ?_)
    · simp only [Call.Pends, Call.pending] at pends
      omega
    · have other' : page ≠ chunkToPage addr + seen.length := by
        rintro rfl
        exact mine.2 j d other there waiting
      simp only [update_of_ne other']
      exact waits.awaited j d page there waiting
    · have other' : page ≠ chunkToPage addr + seen.length := by
        rintro rfl
        simp at invalid
      simp only [update_of_ne other'] at invalid ⊢
      rcases waits.entry page invalid with none | ⟨j, d, there, has⟩
      · exact .inl none
      · refine .inr (.inr ⟨j, d, ?_, there, has⟩)
        rintro rfl
        rw [here, Option.some.injEq] at there
        rw [← there] at has
        simp only [Call.gets, phase, Option.some.injEq] at has
        exact other' has.symm
  simp only [State.go, phase]
  cases m with
  | sleep =>
    dsimp only
    split
    · exact waits.unlock
    · exact waits
  | nothing => exact finish
  | frame pfnum => exact finish

theorem Waits.go (waits : Waits maxchunks s) (here : s.calls id = some c) (m : Memory)
    (calm : s.InPool maxchunks c ∧ ∀ other, other ≠ id → ∀ d ∈ s.calls other, s.Clear c d) :
    Waits maxchunks (s.go id c m) := by
  cases phase : c.phase with
  | scan addr maxlen kind => exact waits.scan here phase m calm
  | found addr maxlen kind foundlen => exact waits.found here phase m
  | mark addr k => exact waits.mark here phase m
  | assign addr seen => exact waits.assign here phase m calm.2
  | want addr seen => exact waits.want here phase m
  | gotten addr seen => exact waits.gotten here phase m
  | live addr seen =>
    simp only [State.go, phase]
    exact waits

theorem Waits.step {e : Event} (waits : Waits maxchunks s) (calm : s.Calm maxchunks e) :
    Waits maxchunks (s.step maxchunks e) := by
  cases e with
  | alloc id bytes how canwait =>
    simp only [State.step]
    split
    next idle =>
      refine waits.change rfl (of_some fun at' searches => ?_) (of_some fun x pends => ?_)
        (fun j d x _ there pends => (waits.clear j d x there pends).1) (of_some of_none)
        (fun j d page _ there waiting => waits.awaited j d page there waiting)
        (fun page invalid => ?_)
      · simp only [Call.search, Option.some.injEq] at searches
        rw [← searches]
        simp only
        omega
      · simp only [Call.Pends, Call.pending] at pends
        omega
      · rcases waits.entry page invalid with none | ⟨j, d, there, has⟩
        · exact .inl none
        · refine .inr (.inr ⟨j, d, ?_, there, has⟩)
          rintro rfl
          rw [idle.2] at there
          cases there
    next => exact waits
  | run id m =>
    simp only [State.step]
    split
    next c here =>
      split
      next runs => exact waits.go here m (calm runs c here)
      next => exact waits
    next => exact waits
  | put id =>
    simp only [State.step]
    split
    next c here =>
      split
      next addr seen phase =>
        split
        · exact (waits.release here (by simp only [Call.gets, phase]) addr c.len).low
        · exact waits
      next => exact waits
    next => exact waits

/-! ## What is written -/

/-- A call marks only free chunks of the pool and enters frames only for pages without one. -/
theorem Waits.keeps (waits : Waits maxchunks s) (e : Event) : s.Keeps maxchunks e := by
  cases e with
  | alloc id bytes how canwait => trivial
  | put id => trivial
  | run id m =>
    simp only [State.Keeps]
    split
    next c here =>
      split
      next addr k phase =>
        intro more
        refine waits.clear id c (addr + k) here ?_
        simp only [Call.Pends, Call.pending, phase]
        omega
      next addr seen pfnum phase =>
        have mine := @Waits.page maxchunks s id c waits here (chunkToPage addr + seen.length) (by
          simp only [Call.awaits, phase])
        rcases waits.entry _ mine.1 with none | ⟨j, d, there, has⟩
        · exact none
        · -- the call that has entered a frame there would be this one, which has none yet
          by_cases same : j = id
          · rw [same, here, Option.some.injEq] at there
            rw [← there] at has
            simp only [Call.gets, phase] at has
            cases has
          · exact absurd (gets_awaits has) (mine.2 j d same there)
      next => trivial
    next => trivial

end

theorem startup_waits (maxchunks : Nat) : Waits maxchunks startup where
  pool _ _ call := by cases call
  clear _ _ _ call := by cases call
  single _ _ _ _ _ call := by cases call
  awaited _ _ _ call := by cases call
  alone _ _ _ _ _ call := by cases call
  entry _ _ := .inl rfl

/-- The call that takes part in an event. -/
def Event.id : Event → Nat
  | .alloc id _ _ _ | .run id _ | .put id => id

/-- The condition where all calls are among the first `n`. -/
def State.CalmAmong (maxchunks n : Nat) (s : State) (e : Event) : Prop :=
  e.id < n ∧
    match e with
    | .run id _ => s.Runs id → ∀ c ∈ s.calls id, s.InPool maxchunks c ∧
        ∀ other < n, other ≠ id → ∀ d ∈ s.calls other, s.Clear c d
    | _ => True

instance (maxchunks n : Nat) (s : State) (e : Event) : Decidable (s.CalmAmong maxchunks n e) :=
  match e with
  | .alloc id _ _ _ => inferInstanceAs (Decidable (id < n ∧ True))
  | .run id _ => inferInstanceAs (Decidable (id < n ∧ (s.Runs id → ∀ c ∈ s.calls id,
      s.InPool maxchunks c ∧ ∀ other < n, other ≠ id → ∀ d ∈ s.calls other, s.Clear c d)))
  | .put id => inferInstanceAs (Decidable (id < n ∧ True))

theorem goto_other {i id : Nat} {s : State} {c : Call} {phase : Phase} (other : i ≠ id) :
    (s.goto id c phase).calls i = s.calls i :=
  update_of_ne other ..

theorem look_other {i id : Nat} {s : State} {c : Call} {addr foundlen : Nat} {maxlen : Int}
    {kind : Kind} (other : i ≠ id) :
    (s.look id c addr maxlen kind foundlen).calls i = s.calls i := by
  cases kind with
  | bftstclr =>
    rcases @look_cases s id c addr maxlen foundlen with ⟨a, -, next⟩ | ⟨-, n, kind, next⟩
    · rw [next, goto_other other]
    · rw [next, goto_other other]
  | bftstset =>
    simp only [State.look]
    split <;> exact goto_other other

/-- The calls change by events of their own only. -/
theorem go_other {i id : Nat} {s : State} {c : Call} {m : Memory} (other : i ≠ id) :
    (s.go id c m).calls i = s.calls i := by
  have left : ∀ addr len, (s.release id addr len).calls i = s.calls i := fun _ _ =>
    update_of_ne other ..
  cases phase : c.phase with
  | scan addr maxlen kind =>
    simp only [State.go, phase]
    split
    · exact goto_other other
    · exact update_of_ne other ..
  | found addr maxlen kind foundlen =>
    simp only [State.go, phase]
    exact look_other other
  | mark addr k =>
    simp only [State.go, phase]
    split <;> exact goto_other other
  | assign addr seen =>
    simp only [State.go, phase]
    split
    · split <;> exact goto_other other
    · exact goto_other other
  | want addr seen =>
    simp only [State.go, phase]
    cases m with
    | sleep => dsimp only; split <;> rfl
    | nothing =>
      dsimp only
      split
      · rfl
      · exact left addr c.len
    | frame pfnum => exact goto_other other
  | gotten addr seen =>
    simp only [State.go, phase]
    cases m with
    | sleep => dsimp only; split <;> rfl
    | nothing => exact goto_other other
    | frame pfnum => exact goto_other other
  | live addr seen => simp only [State.go, phase]

theorem step_other {maxchunks i : Nat} {s : State} {e : Event} (other : i ≠ e.id) :
    (s.step maxchunks e).calls i = s.calls i := by
  cases e with
  | alloc id bytes how canwait =>
    simp only [State.step]
    split
    · exact update_of_ne other ..
    · rfl
  | put id =>
    simp only [State.step]
    split
    · split
      · split
        · exact update_of_ne other ..
        · rfl
      · rfl
    · rfl
  | run id m =>
    simp only [State.step]
    split
    · split
      · exact go_other other
      · rfl
    · rfl

theorem calm_of_among {maxchunks n : Nat} {events : List Event}
    (along : Along (State.step maxchunks) (State.CalmAmong maxchunks n) startup events) :
    Along (State.step maxchunks) (State.Calm maxchunks) startup events := by
  have keep : ∀ (s : State) (e : Event), (∀ i, n ≤ i → s.calls i = none) →
      s.CalmAmong maxchunks n e → ∀ i, n ≤ i → (s.step maxchunks e).calls i = none := by
    intro s e few calm i beyond
    rw [step_other (Nat.ne_of_gt (Nat.lt_of_lt_of_le calm.1 beyond))]
    exact few i beyond
  refine along_of_invariant keep (fun s e few calm => ?_) (fun _ _ => rfl) along
  cases e with
  | alloc id bytes how canwait => trivial
  | put id => trivial
  | run id m =>
    intro runs c here
    obtain ⟨pool, clear⟩ := calm.2 runs c here
    refine ⟨pool, fun other apart d there => ?_⟩
    rcases Nat.lt_or_ge other n with among | beyond
    · exact clear other among apart d there
    · rw [few other beyond] at there
      cases there

/-- A call that is given `pfnum` when it needs a frame takes `steps` steps. -/
def serve (id pfnum steps : Nat) : List Event := List.replicate steps (.run id (.frame pfnum))

/-- An interrupt gets a chunk while a process sleeps for the frame of its second page. -/
def apartCalls : List Event :=
  Event.alloc 0 8192 false true :: serve 0 5 23 ++
    [Event.run 0 .sleep, Event.alloc 1 512 false false] ++ serve 1 7 12 ++ serve 0 6 3

/-- An interrupt comes between the search of a process and its marking. -/
def interrupted : List Event :=
  Event.alloc 0 512 false true :: serve 0 5 2 ++ Event.alloc 1 512 false false :: serve 1 6 8 ++
    serve 0 5 4

/-- An interrupt gets a chunk of the page that a process sleeps for. -/
def slept : List Event :=
  Event.alloc 0 512 false true :: serve 0 5 5 ++
    [Event.run 0 .sleep, Event.alloc 1 512 false false] ++ serve 1 6 12 ++ serve 0 5 3

/-- A request for an aligned piece finds its run at the end of the pool. -/
def aligned : List Event :=
  .alloc 0 4608 false true :: serve 0 5 19 ++ .alloc 1 2048 true true :: serve 1 7 11

end Irix.Chunk
