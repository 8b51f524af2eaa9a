import Mathlib.Data.List.Sort
import Mathlib.Tactic.Linarith

/-! # Comparison functions

Functions that return a number below, at or above zero as the first argument comes
before, with or behind the second, and what a sorting function does with them.
-/

namespace Lib.Compare

universe u

variable {α β : Type u}

/-- A comparison function orders what meets `ok`. -/
structure Lawful (ok : α → Prop) (cmp : α → α → Int) : Prop where
  flip : ∀ a b, ok a → ok b → cmp a b = -cmp b a
  trans : ∀ a b c, ok a → ok b → ok c → cmp a b ≤ 0 → cmp b c ≤ 0 → cmp a c ≤ 0

/-- Compare by `second` what `first` finds equal. -/
def andThen (first second : α → α → Int) (a b : α) : Int :=
  if first a b = 0 then second a b else first a b

section

variable {ok ok' : α → Prop} {cmp first second : α → α → Int}

theorem Lawful.mono (lawful : Lawful ok cmp) (less : ∀ a, ok' a → ok a) : Lawful ok' cmp :=
  ⟨fun a b here there => lawful.flip a b (less a here) (less b there),
    fun a b c here there last => lawful.trans a b c (less a here) (less b there) (less c last)⟩

theorem Lawful.on {ok : β → Prop} {cmp : β → β → Int} (lawful : Lawful ok cmp) (f : α → β) :
    Lawful (fun a => ok (f a)) fun a b => cmp (f a) (f b) :=
  ⟨fun a b => lawful.flip (f a) (f b), fun a b c => lawful.trans (f a) (f b) (f c)⟩

theorem Lawful.total (lawful : Lawful ok cmp) {a b : α} (here : ok a) (there : ok b) :
    cmp a b ≤ 0 ∨ cmp b a ≤ 0 := by
  have flip := lawful.flip a b here there
  omega

theorem Lawful.andThen (lawful : Lawful ok first) (lawful' : Lawful ok second) :
    Lawful ok (andThen first second) := by
  constructor
  · intro a b here there
    have flip := lawful.flip a b here there
    have flip' := lawful'.flip a b here there
    simp only [Compare.andThen]
    split <;> split <;> omega
  · intro a b c here there last before before'
    have flip := lawful.flip a b here there
    have flip' := lawful.flip b c there last
    have flip'' := lawful.flip a c here last
    have up := lawful.trans a b c here there last
    have down := lawful.trans c a b last here there
    have down' := lawful.trans b c a there last here
    have next := lawful'.trans a b c here there last
    simp only [Compare.andThen] at *
    split at before <;> split at before' <;> split <;> omega

end

/-- A sorting function, which puts what compares equal in whatever order. -/
structure Qsort where
  sort : {α : Type} → (α → α → Int) → List α → List α
  perm : ∀ {α : Type} (cmp : α → α → Int) (l : List α), (sort cmp l).Perm l
  sorted : ∀ {α : Type} (cmp : α → α → Int) (l : List α),
    Lawful (fun a => a ∈ l) cmp → (sort cmp l).Pairwise fun a b => cmp a b ≤ 0

/-- Sorting by insertion. -/
def insertion : Qsort where
  sort cmp l := (l.attach.insertionSort fun a b => cmp a.val b.val ≤ 0).map Subtype.val
  perm cmp l := by
    have sorted := (List.perm_insertionSort (fun a b => cmp a.val b.val ≤ 0) l.attach).map
      Subtype.val
    rwa [List.attach_map_subtype_val] at sorted
  sorted cmp l lawful := by
    have total : Std.Total fun a b : { a // a ∈ l } => cmp a.val b.val ≤ 0 :=
      ⟨fun a b => lawful.total a.property b.property⟩
    have trans : IsTrans { a // a ∈ l } fun a b => cmp a.val b.val ≤ 0 :=
      ⟨fun a b c => lawful.trans a b c a.property b.property c.property⟩
    exact List.pairwise_map.mpr (List.pairwise_insertionSort _ l.attach)

end Lib.Compare
