import Irix.Gl2.Items
import Mathlib.Data.List.Flatten

/-! # Deleting from an object

`objdelete` looks for the second tag and frees what the commands on the way own. Only then it is
known whether there is such a tag, and memory for the tags that are to go.
-/

namespace Irix.Gl2

open Function

def STARTTAG : Int := -2

def ENDTAG : Int := -3

/-- The open object. -/
structure Object where
  /-- the item at each place in the chunks -/
  code : Pos → Item
  head : Pos
  /-- where the header itself is, which is in no chunk -/
  header : Pos
  /-- the hash table's entries for this object: the header's, under -1, and those of its tags -/
  hash : Int → Option Pos
  tags : List Int
  /-- storage of the commands -/
  strings : List Block
  /-- `geom` and `itermat` of a `Curves` -/
  curves : Block → Option Block × Option Block
  /-- `itermats` of a `Patch` -/
  patch : Block → Option Block
  /-- what `gl_objfree` has freed -/
  freed : List Block
  datasize : Int
  tailptr : Pos
  currentpos : Pos

namespace Object

variable (s : Object)

def objfree (ptr : Block) : Object :=
  if ptr ∈ s.strings then { s with strings := s.strings.erase ptr, freed := s.freed ++ [ptr] } else s

/-- What is freed with a command, in this order. -/
def owned : Command → List Block
  | .charstr str => [str]
  | .callfunc _ .drawcurve str => [str]
  | .callfunc _ .drawcurves str => (s.curves str).1.toList ++ (s.curves str).2.toList ++ [str]
  | .callfunc _ .drawpatch str => (s.patch str).toList ++ [str]
  | _ => []

def release (c : Command) : Object := (s.owned c).foldl objfree s

def deltag (tag : Int) : Object :=
  if tag < 0 then s
  else
    match s.hash tag with
    | none => s
    | some tagloc =>
        { s with
          code := update s.code tagloc (.jump (tagloc.add 4))
          hash := update s.hash tag none
          datasize := s.datasize - 4
          tags := s.tags.erase tag }

def deltags (deleted : List Int) : Object := deleted.foldl deltag s

def goodExit : Object := { s with currentpos := s.tailptr }

end Object

inductive Outcome where
  | failed (s : Object)
  | done (s : Object)

/-- The loop of `objdelete`. `memory` says for each cell of the list of deleted tags if there is any
    for it. -/
def scan (tag2 : Int) (memory : Nat → Bool) (first : Pos) :
    Nat → Pos → List Int → Object → Option Outcome
  | 0, _, _, _ => none
  | fuel + 1, p, deleted, s =>
    match s.code p with
    | .retsym =>
        if tag2 = ENDTAG then
          let s := s.deltags deleted
          some (.done { s with code := update s.code first .retsym, tailptr := first }.goodExit)
        else some (.failed s)
    | .jump place => scan tag2 memory first fuel place deleted s
    | .tag t =>
        if t = tag2 then
          if p = first then some (.done s.goodExit)
          else if p = first.add 2 then
            some (.done { s with code := update s.code first .slopnop2 }.goodExit)
          else if p = first.add 3 then
            some (.done { s with code := update s.code first .slopnop3 }.goodExit)
          else
            let s := s.deltags deleted
            some (.done { s with code := update s.code first (.jump p) }.goodExit)
        else if memory deleted.length then scan tag2 memory first fuel (p.add 4) (t :: deleted) s
        else some (.failed s)
    | .slopnop2 => scan tag2 memory first fuel (p.add 2) deleted s
    | .slopnop3 => scan tag2 memory first fuel (p.add 3) deleted s
    | .command c => scan tag2 memory first fuel (p.add c.length.toNat) deleted (s.release c)

def objdelete (tag1 tag2 : Int) (memory : Nat → Bool) (fuel : Nat) (s : Object) : Option Outcome :=
  if tag1 = STARTTAG then scan tag2 memory s.head fuel s.head [] s
  else
    match s.hash tag1 with
    | none => some (.failed s)
    | some p => scan tag2 memory (p.add 4) fuel (p.add 4) [] s

/-! ## What is expected -/

def Object.ownedBy (s : Object) : Item → List Block
  | .command c => s.owned c
  | _ => []

/-- The storage of the commands among some items. -/
def Object.storage (s : Object) (items : List (Pos × Item)) : List Block :=
  items.flatMap fun item => s.ownedBy item.2

/-- An object with these items: its tags are found where they are, and each command has its
    storage to itself. -/
structure Editable (s : Object) (items : List (Pos × Item)) : Prop where
  trail : ∃ e, Trail s.code s.head items e
  header : s.hash (-1) = some s.header
  hash : ∀ t, t ≠ -1 → ∀ p, s.hash t = some p ↔ (p, Item.tag t) ∈ items
  tags : ∀ p t, (p, Item.tag t) ∈ items → 0 ≤ t
  strings : s.strings.Nodup
  alone : (s.storage items).Nodup
  stored : ∀ b ∈ s.storage items, b ∈ s.strings

/-- What is behind the first tag, if there is such a tag. -/
def start (tag1 : Int) (items : List (Pos × Item)) : Option (List (Pos × Item)) :=
  if tag1 = STARTTAG then some items
  else
    match items.dropWhile fun item => decide (item.2 ≠ .tag tag1) with
    | [] => none
    | _ :: rest => some rest

/-- What is before the second tag. -/
def cut (tag2 : Int) (rest : List (Pos × Item)) : List (Pos × Item) :=
  rest.takeWhile fun item => decide (item.2 ≠ .tag tag2)

/-- As far as there is memory for the tags. -/
def reached (memory : Nat → Bool) : Nat → List (Pos × Item) → List (Pos × Item)
  | _, [] => []
  | k, (p, .tag t) :: items => if memory k then (p, .tag t) :: reached memory (k + 1) items else []
  | k, item :: items => item :: reached memory k items

/-- The second tag is met, and there is memory for all tags before it. -/
def Succeeds (tag2 : Int) (memory : Nat → Bool) (rest : List (Pos × Item)) : Prop :=
  (tag2 = ENDTAG ∨ ∃ p, (p, Item.tag tag2) ∈ rest) ∧ reached memory 0 (cut tag2 rest) = cut tag2 rest

/-- The object is as it was, and each command has its storage. -/
structure Unchanged (s s' : Object) (items : List (Pos × Item)) : Prop where
  head : s'.head = s.head
  code : s'.code = s.code
  hash : s'.hash = s.hash
  tags : s'.tags = s.tags
  owns : ∀ b ∈ s.storage items, b ∈ s'.strings

/-- This is freed, each block once, and nothing else. -/
structure Freed (s s' : Object) (blocks : List Block) : Prop where
  freed : s'.freed = s.freed ++ blocks
  once : blocks.Nodup
  strings : s.strings.Perm (blocks ++ s'.strings)

/-- What is expected of a call, the items behind the first tag being these. -/
def Expected (s : Object) (items : List (Pos × Item)) (tag2 : Int) (rest : List (Pos × Item)) :
    Outcome → Prop
  | .failed s' => Unchanged s s' items
  | .done s' => Freed s s' (s.storage (cut tag2 rest))

/-! ## Storage -/

section

variable {s t u : Object} {items rest : List (Pos × Item)} {blocks : List Block} {p : Pos}
  {tag1 tag2 : Int} {memory : Nat → Bool} {k : Nat}

/-- The storage of the commands among some items is freed. -/
def Object.releases (s : Object) (items : List (Pos × Item)) : Object :=
  (s.storage items).foldl objfree s

/-- Only the list of the storage differs. -/
structure Freeing (s t : Object) : Prop where
  same : t = { s with strings := t.strings, freed := t.freed }

theorem Freeing.refl (s : Object) : Freeing s s := ⟨rfl⟩

theorem Freeing.trans (left : Freeing s t) (right : Freeing t u) : Freeing s u :=
  ⟨by rw [right.same, left.same]⟩

theorem Freeing.owned (freeing : Freeing s t) (c : Command) : t.owned c = s.owned c := by
  rw [freeing.same]
  rfl

theorem Freeing.storage (freeing : Freeing s t) (items : List (Pos × Item)) :
    t.storage items = s.storage items := by
  have same : ∀ i, t.ownedBy i = s.ownedBy i := by
    intro i
    cases i with
    | command c => exact freeing.owned c
    | retsym | jump | tag | slopnop2 | slopnop3 => rfl
  simp only [Object.storage, same]

theorem freeing_objfree (s : Object) (ptr : Block) : Freeing s (s.objfree ptr) := by
  unfold Object.objfree
  split <;> exact ⟨rfl⟩

theorem freeing_foldl (blocks : List Block) (s : Object) : Freeing s (blocks.foldl Object.objfree s) := by
  induction blocks generalizing s with
  | nil => exact .refl s
  | cons b blocks ih => exact (freeing_objfree s b).trans (ih _)

theorem releases_cons (s : Object) (p : Pos) (i : Item) (items : List (Pos × Item)) :
    s.releases ((p, i) :: items) = ((s.ownedBy i).foldl Object.objfree s).releases items := by
  have freeing := freeing_foldl (s.ownedBy i) s
  rw [Object.releases, Object.releases, freeing.storage, ← List.foldl_append]
  rfl

/-- Storage that is there is freed. -/
theorem foldl_freed (once : blocks.Nodup) (strings : s.strings.Nodup)
    (stored : ∀ b ∈ blocks, b ∈ s.strings) : Freed s (blocks.foldl Object.objfree s) blocks := by
  induction blocks generalizing s with
  | nil => exact ⟨by simp, once, .refl _⟩
  | cons b blocks ih =>
      obtain ⟨new, once⟩ := List.nodup_cons.mp once
      have here : b ∈ s.strings := stored b (by simp)
      have first : s.objfree b = { s with strings := s.strings.erase b, freed := s.freed ++ [b] } :=
        if_pos here
      rw [List.foldl_cons, first]
      obtain ⟨freed, -, rest⟩ := @ih { s with strings := s.strings.erase b, freed := s.freed ++ [b] }
        once (strings.erase b) fun c listed =>
          (List.mem_erase_of_ne (ne_of_mem_of_not_mem listed new)).mpr (stored c (by simp [listed]))
      refine ⟨by rw [freed]; simp, by simp [new, once], ?_⟩
      exact (List.perm_cons_erase here).trans (rest.cons b)

/-! ## The loop -/

theorem deltags_strings (deleted : List Int) (s : Object) :
    (s.deltags deleted).strings = s.strings ∧ (s.deltags deleted).freed = s.freed := by
  induction deleted generalizing s with
  | nil => exact ⟨rfl, rfl⟩
  | cons tag deleted ih =>
      have one : (s.deltag tag).strings = s.strings ∧ (s.deltag tag).freed = s.freed := by
        unfold Object.deltag
        split
        · exact ⟨rfl, rfl⟩
        · split <;> exact ⟨rfl, rfl⟩
      obtain ⟨strings, freed⟩ := ih (s.deltag tag)
      exact ⟨strings.trans one.1, freed.trans one.2⟩

/-- How the loop ends from some place on. -/
inductive Ends (tag2 : Int) (memory : Nat → Bool) (k : Nat) (rest : List (Pos × Item)) (s : Object) :
    Outcome → Prop
  | done {u : Object} (met : tag2 = ENDTAG ∨ ∃ p, (p, Item.tag tag2) ∈ rest)
      (all : reached memory k (cut tag2 rest) = cut tag2 rest)
      (strings : u.strings = (s.releases (cut tag2 rest)).strings)
      (freed : u.freed = (s.releases (cut tag2 rest)).freed) : Ends tag2 memory k rest s (.done u)
  | failed (not : ¬((tag2 = ENDTAG ∨ ∃ p, (p, Item.tag tag2) ∈ rest) ∧
        reached memory k (cut tag2 rest) = cut tag2 rest)) :
      Ends tag2 memory k rest s (.failed (s.releases (reached memory k (cut tag2 rest))))

/-- An item that is no tag is passed, and its storage freed. -/
theorem Ends.passed {i : Item} {outcome : Outcome} (plain : ∀ t, i ≠ .tag t)
    (ends : Ends tag2 memory k rest ((s.ownedBy i).foldl Object.objfree s) outcome) :
    Ends tag2 memory k ((p, i) :: rest) s outcome := by
  have cut_eq : cut tag2 ((p, i) :: rest) = (p, i) :: cut tag2 rest := by
    simp [cut, plain tag2]
  have reached_eq : ∀ l, reached memory k ((p, i) :: l) = (p, i) :: reached memory k l := by
    intro l
    cases i with
    | tag t => exact absurd rfl (plain t)
    | retsym | jump | slopnop2 | slopnop3 | command => rfl
  have there : (∃ q, (q, Item.tag tag2) ∈ (p, i) :: rest) ↔ ∃ q, (q, Item.tag tag2) ∈ rest := by
    simp [(plain tag2).symm]
  cases ends with
  | done met all strings freed =>
      refine .done (by rwa [there]) (by rw [cut_eq, reached_eq, all]) ?_ ?_
      · rw [cut_eq, releases_cons]
        exact strings
      · rw [cut_eq, releases_cons]
        exact freed
  | failed not =>
      rw [← releases_cons (p := p), ← reached_eq, ← cut_eq]
      apply Ends.failed
      rw [there, cut_eq, reached_eq]
      simpa using not

/-- Another tag is passed where there is memory for it. -/
theorem Ends.passedTag {tag : Int} {outcome : Outcome} (other : tag ≠ tag2) (some : memory k = true)
    (ends : Ends tag2 memory (k + 1) rest s outcome) :
    Ends tag2 memory k ((p, .tag tag) :: rest) s outcome := by
  have cut_eq : cut tag2 ((p, .tag tag) :: rest) = (p, .tag tag) :: cut tag2 rest := by
    simp [cut, other]
  have reached_eq : ∀ l, reached memory k ((p, .tag tag) :: l) =
      (p, .tag tag) :: reached memory (k + 1) l := by
    intro l
    simp [reached, some]
  have there : (∃ q, (q, Item.tag tag2) ∈ (p, Item.tag tag) :: rest) ↔
      ∃ q, (q, Item.tag tag2) ∈ rest := by
    simp [other.symm]
  cases ends with
  | done met all strings freed =>
      refine .done (by rwa [there]) (by rw [cut_eq, reached_eq, all]) ?_ ?_
      · rw [cut_eq, releases_cons]
        exact strings
      · rw [cut_eq, releases_cons]
        exact freed
  | failed not =>
      have free : s.releases (reached memory (k + 1) (cut tag2 rest)) =
          s.releases (reached memory k (cut tag2 ((p, .tag tag) :: rest))) := by
        rw [cut_eq, reached_eq, releases_cons]
        rfl
      rw [free]
      apply Ends.failed
      rw [there, cut_eq, reached_eq]
      simpa using not

/-- The loop runs to the end of the object at the latest. -/
theorem scan_spec {code : Pos → Item} {first e : Pos} (trail : Trail code p rest e) (deleted : List Int)
    (s : Object) (same : s.code = code) :
    ∃ N outcome, (∀ fuel, N ≤ fuel → scan tag2 memory first fuel p deleted s = some outcome) ∧
      Ends tag2 memory deleted.length rest s outcome := by
  induction trail generalizing deleted s with
  | @last p ends =>
      by_cases last : tag2 = ENDTAG
      · refine ⟨1, .done { s.deltags deleted with
            code := update (s.deltags deleted).code first .retsym, tailptr := first }.goodExit,
          fun fuel enough => ?_, .done (Or.inl last) rfl ?_ ?_⟩
        · obtain ⟨fuel, rfl⟩ : ∃ f, fuel = f + 1 := ⟨fuel - 1, by omega⟩
          simp only [scan, same, ends, last, if_true]
        · exact (deltags_strings deleted s).1
        · exact (deltags_strings deleted s).2
      · refine ⟨1, .failed s, fun fuel enough => ?_, .failed ?_⟩
        · obtain ⟨fuel, rfl⟩ : ∃ f, fuel = f + 1 := ⟨fuel - 1, by omega⟩
          simp only [scan, same, ends, last, if_false]
        · simp [last]
  | @step p q e rest next trail ih =>
      -- what is no tag is passed
      have pass : ∀ i : Item, (∀ t, i ≠ .tag t) →
          (∀ fuel, scan tag2 memory first (fuel + 1) p deleted s =
            scan tag2 memory first fuel q deleted ((s.ownedBy i).foldl Object.objfree s)) →
          ∃ N outcome, (∀ fuel, N ≤ fuel → scan tag2 memory first fuel p deleted s = some outcome) ∧
            Ends tag2 memory deleted.length ((p, i) :: rest) s outcome := by
        intro i plain onward
        have freeing := freeing_foldl (s.ownedBy i) s
        obtain ⟨N, outcome, runs, ends⟩ := ih deleted ((s.ownedBy i).foldl Object.objfree s)
          (by rw [freeing.same]; exact same)
        refine ⟨N + 1, outcome, fun fuel enough => ?_, ends.passed plain⟩
        obtain ⟨fuel, rfl⟩ : ∃ f, fuel = f + 1 := ⟨fuel - 1, by omega⟩
        rw [onward]
        exact runs fuel (by omega)
      cases here : code p with
      | retsym =>
          rw [here] at next
          cases next
      | jump | slopnop2 | slopnop3 | command =>
          rw [here] at next
          cases next
          apply pass _ (by simp)
          intro fuel
          simp only [scan, same, here]
          rfl
      | tag t =>
          rw [here] at next
          cases next
          by_cases met : t = tag2
          · subst met
            have cut_eq : cut t ((p, .tag t) :: rest) = [] := by simp [cut]
            refine ⟨1, ?_⟩
            have ends : ∀ u : Object, u.strings = s.strings → u.freed = s.freed →
                Ends t memory deleted.length ((p, .tag t) :: rest) s (.done u) := by
              intro u strings freed
              refine .done (Or.inr ⟨p, by simp⟩) (by rw [cut_eq]; rfl) ?_ ?_
              · rwa [cut_eq]
              · rwa [cut_eq]
            have runs : ∃ u : Object, u.strings = s.strings ∧ u.freed = s.freed ∧
                ∀ fuel, scan t memory first (fuel + 1) p deleted s = some (.done u) := by
              simp only [scan, same, here, if_true]
              split
              · refine ⟨_, ?_, ?_, fun _ => rfl⟩ <;> rfl
              · split
                · refine ⟨_, ?_, ?_, fun _ => rfl⟩ <;> rfl
                · split
                  · refine ⟨_, ?_, ?_, fun _ => rfl⟩ <;> rfl
                  · refine ⟨_, ?_, ?_, fun _ => rfl⟩
                    · exact (deltags_strings deleted s).1
                    · exact (deltags_strings deleted s).2
            obtain ⟨u, strings, freed, runs⟩ := runs
            refine ⟨.done u, fun fuel enough => ?_, ends u strings freed⟩
            obtain ⟨fuel, rfl⟩ : ∃ f, fuel = f + 1 := ⟨fuel - 1, by omega⟩
            exact runs fuel
          · by_cases some : memory deleted.length = true
            · obtain ⟨N, outcome, runs, ends⟩ := ih (t :: deleted) s same
              refine ⟨N + 1, outcome, fun fuel enough => ?_, ends.passedTag met some⟩
              obtain ⟨fuel, rfl⟩ : ∃ f, fuel = f + 1 := ⟨fuel - 1, by omega⟩
              simp only [scan, same, here, met, some, if_false, if_true]
              exact runs fuel (by omega)
            · have cut_eq : cut tag2 ((p, .tag t) :: rest) = (p, .tag t) :: cut tag2 rest := by
                simp [cut, met]
              have reached_eq : reached memory deleted.length (cut tag2 ((p, .tag t) :: rest)) = [] := by
                simp [cut_eq, reached, some]
              have ends : Ends tag2 memory deleted.length ((p, .tag t) :: rest) s (.failed (s.releases
                  (reached memory deleted.length (cut tag2 ((p, .tag t) :: rest))))) := by
                apply Ends.failed
                rw [reached_eq, cut_eq]
                simp
              rw [reached_eq] at ends
              refine ⟨1, _, fun fuel enough => ?_, ends⟩
              obtain ⟨fuel, rfl⟩ : ∃ f, fuel = f + 1 := ⟨fuel - 1, by omega⟩
              simp only [scan, same, here, met, some, if_false]
              rfl

/-! ## A call -/

theorem dropWhile_tag {t : Int} :
    (∃ q rest', items.dropWhile (fun item => decide (item.2 ≠ .tag t)) = (q, .tag t) :: rest' ∧
      ∃ front, items = front ++ (q, .tag t) :: rest') ∨
    (items.dropWhile (fun item => decide (item.2 ≠ .tag t)) = [] ∧ ∀ q, (q, Item.tag t) ∉ items) := by
  induction items with
  | nil => exact Or.inr ⟨rfl, by simp⟩
  | cons item items ih =>
      obtain ⟨q, i⟩ := item
      by_cases here : i = .tag t
      · subst here
        exact Or.inl ⟨q, items, by simp, [], rfl⟩
      · rw [List.dropWhile_cons_of_pos (by simpa using here)]
        rcases ih with ⟨q', rest', eq, front, split⟩ | ⟨eq, none⟩
        · exact Or.inl ⟨q', rest', eq, (q, i) :: front, by rw [split]; rfl⟩
        · refine Or.inr ⟨eq, fun q' listed => ?_⟩
          rcases List.mem_cons.mp listed with same | listed
          · cases same
            exact here rfl
          · exact none q' listed

/-- With the header's own entry for the first tag the scan begins in the header. -/
theorem objdelete_header (editable : Editable s items) (tag2 : Int) (memory : Nat → Bool)
    (fuel : Nat) : objdelete (-1) tag2 memory fuel s =
      scan tag2 memory (s.header.add 4) fuel (s.header.add 4) [] s := by
  rw [objdelete, if_neg (by decide), editable.header]

/-- Behind an unknown tag there is nothing, and behind another one the object goes on. -/
theorem objdelete_spec (editable : Editable s items) (tag1 tag2 : Int) (memory : Nat → Bool)
    (other : tag1 ≠ -1) :
    (start tag1 items = none ∧ ∀ fuel, objdelete tag1 tag2 memory fuel s = some (.failed s)) ∨
      ∃ rest, start tag1 items = some rest ∧ (∃ front, items = front ++ rest) ∧
        ∃ N outcome, (∀ fuel, N ≤ fuel → objdelete tag1 tag2 memory fuel s = some outcome) ∧
          Ends tag2 memory 0 rest s outcome := by
  obtain ⟨e, trail⟩ := editable.trail
  by_cases first : tag1 = STARTTAG
  · refine Or.inr ⟨items, if_pos first, ⟨[], rfl⟩, ?_⟩
    obtain ⟨N, outcome, runs, ends⟩ := @scan_spec _ _ tag2 memory _ s.head _ trail [] s rfl
    exact ⟨N, outcome, fun fuel enough => by rw [objdelete, if_pos first]; exact runs fuel enough, ends⟩
  · rcases @dropWhile_tag items tag1 with ⟨q, rest, eq, front, split⟩ | ⟨eq, none⟩
    · have known := (editable.hash tag1 other q).mpr (by rw [split]; simp)
      rw [split] at trail
      obtain ⟨-, r, next, trail⟩ := trail.behind
      cases next
      obtain ⟨N, outcome, runs, ends⟩ := @scan_spec _ _ tag2 memory _ (q.add 4) _ trail [] s rfl
      refine Or.inr ⟨rest, ?_, ⟨front ++ [(q, .tag tag1)], by rw [split]; simp⟩, N, outcome,
        fun fuel enough => ?_, ends⟩
      · rw [start, if_neg first, eq]
      · rw [objdelete, if_neg first, known]
        exact runs fuel enough
    · have unknown : s.hash tag1 = Option.none := by
        cases found : s.hash tag1 with
        | none => rfl
        | some q => exact absurd ((editable.hash tag1 other q).mp found) (none q)
      refine Or.inl ⟨?_, fun fuel => ?_⟩
      · rw [start, if_neg first, eq]
      · rw [objdelete, if_neg first, unknown]

theorem storage_sublist {front back : List (Pos × Item)} (sub : List.Sublist front back) :
    List.Sublist (s.storage front) (s.storage back) :=
  sub.flatMap _

theorem reached_sublist (memory : Nat → Bool) (k : Nat) (items : List (Pos × Item)) :
    List.Sublist (reached memory k items) items := by
  fun_induction reached memory k items with
  | case1 => exact .refl _
  | case2 k p t items some ih => exact ih.cons_cons _
  | case3 => exact List.nil_sublist _
  | case4 k item items _ ih => exact ih.cons_cons _

/-- A call does what is expected of it exactly where, if it fails, no command that it passed on
    the way owns any storage.  The first tag may be any but -1, under which the header is found
    and not the tag that is missing. -/
theorem objdelete_iff (editable : Editable s items) (tag1 tag2 : Int) (memory : Nat → Bool)
    (other : tag1 ≠ -1) :
    (∃ outcome, (∃ N, ∀ fuel, N ≤ fuel → objdelete tag1 tag2 memory fuel s = some outcome) ∧
      Expected s items tag2 ((start tag1 items).getD []) outcome) ↔
    ∀ rest, start tag1 items = some rest → ¬Succeeds tag2 memory rest →
      s.storage (reached memory 0 (cut tag2 rest)) = [] := by
  rcases objdelete_spec editable tag1 tag2 memory other with ⟨unknown, runs⟩ | ⟨rest, known, ⟨front, split⟩, N,
    outcome, runs, ends⟩
  · rw [unknown]
    refine iff_of_true ⟨.failed s, ⟨0, fun fuel _ => runs fuel⟩, rfl, rfl, rfl, rfl, editable.stored⟩ ?_
    intro rest known
    cases known
  · have only : ∀ o, (∃ N, ∀ fuel, N ≤ fuel → objdelete tag1 tag2 memory fuel s = some o) → o = outcome := by
      rintro o ⟨N', runs'⟩
      have here := runs (max N N') (by omega)
      rw [runs' (max N N') (by omega)] at here
      exact Option.some.inj here
    have exact_outcome : (∃ o, (∃ N, ∀ fuel, N ≤ fuel → objdelete tag1 tag2 memory fuel s = some o) ∧
        Expected s items tag2 ((start tag1 items).getD []) o) ↔ Expected s items tag2 rest outcome := by
      rw [known]
      constructor
      · rintro ⟨o, runs', expected⟩
        rw [only o runs'] at expected
        exact expected
      · exact fun expected => ⟨outcome, ⟨N, runs⟩, expected⟩
    rw [exact_outcome, known]
    simp only [Option.some.injEq, forall_eq']
    have inside : List.Sublist rest items := by
      rw [split]
      exact List.sublist_append_right ..
    cases ends with
    | done met all strings freed =>
        have part := storage_sublist (s := s) ((List.takeWhile_sublist _ : List.Sublist (cut tag2 rest) rest).trans inside)
        have free := foldl_freed (editable.alone.sublist part) editable.strings fun b listed =>
          editable.stored b (part.subset listed)
        refine iff_of_true ⟨freed.trans free.freed, free.once, ?_⟩ (fun not => absurd ⟨met, all⟩ not)
        rw [strings]
        exact free.strings
    | failed not =>
        have passed := (reached_sublist memory 0 (cut tag2 rest)).trans (List.takeWhile_sublist _)
        have part := storage_sublist (s := s) (passed.trans inside)
        have free := foldl_freed (editable.alone.sublist part) editable.strings fun b listed =>
          editable.stored b (part.subset listed)
        have freeing := freeing_foldl (s.storage (reached memory 0 (cut tag2 rest))) s
        constructor
        · intro unchanged _
          by_contra some
          obtain ⟨b, listed⟩ := List.exists_mem_of_ne_nil _ some
          have still := unchanged.owns b (part.subset listed)
          have nodup := free.strings.nodup_iff.mp editable.strings
          exact (List.nodup_append.mp nodup).2.2 b listed b still rfl
        · intro nothing
          have none := nothing not
          have same : s.releases (reached memory 0 (cut tag2 rest)) = s := by
            rw [Object.releases, none]
            rfl
          simp only [Expected] at same ⊢
          rw [same]
          exact ⟨rfl, rfl, rfl, rfl, editable.stored⟩

end

/-- A tag and a text behind it. -/
def sample : Object where
  code p := if p = ⟨0, 0⟩ then .tag 1 else if p = ⟨0, 4⟩ then .command (.charstr 7) else .retsym
  head := ⟨0, 0⟩
  header := ⟨1, 0⟩
  hash t := if t = 1 then some ⟨0, 0⟩ else if t = -1 then some ⟨1, 0⟩ else none
  tags := [1]
  strings := [7]
  curves _ := (none, none)
  patch _ := none
  freed := []
  datasize := 8
  tailptr := ⟨0, 8⟩
  currentpos := ⟨0, 8⟩

def sampleItems : List (Pos × Item) := [(⟨0, 0⟩, .tag 1), (⟨0, 4⟩, .command (.charstr 7))]

theorem sample_editable : Editable sample sampleItems where
  trail := ⟨⟨0, 8⟩, Trail.step (q := ⟨0, 4⟩) rfl (Trail.step (q := ⟨0, 8⟩) rfl (Trail.last rfl))⟩
  header := rfl
  hash t other p := by
    simp only [sample, sampleItems, other, if_false]
    split
    · next one => simp [one, eq_comm]
    · next none => simp [none]
  tags p t listed := by
    simp only [sampleItems, List.mem_cons, Prod.mk.injEq, Item.tag.injEq, reduceCtorEq, and_false,
      List.not_mem_nil, or_false] at listed
    omega
  strings := by decide
  alone := by decide
  stored := by decide

theorem objdelete_iff_sample :
    (∃ outcome, (∃ N, ∀ fuel, N ≤ fuel →
        objdelete 1 ENDTAG (fun _ => true) fuel sample = some outcome) ∧
      Expected sample sampleItems ENDTAG ((start 1 sampleItems).getD []) outcome) ↔
    ∀ rest, start 1 sampleItems = some rest → ¬Succeeds ENDTAG (fun _ => true) rest →
      sample.storage (reached (fun _ => true) 0 (cut ENDTAG rest)) = [] :=
  objdelete_iff sample_editable 1 ENDTAG (fun _ => true) (by decide)

/-- With a second tag that is not there the text is freed, and stays in the object. -/
theorem objdelete_frees : ∃ s', objdelete 1 5 (fun _ => true) 3 sample = some (.failed s') ∧
    ¬Unchanged sample s' sampleItems :=
  ⟨_, rfl, fun unchanged => absurd (unchanged.owns 7 (by decide)) (by decide)⟩

end Irix.Gl2
