import Mathlib.Data.List.Nodup
import Mathlib.Tactic.Common

/-! # Records with a free list

Records are named by numbers.  A record is taken from the free list where there
is one and from fresh memory otherwise, and given back to the front of the
list.  `Keeps` says that no record in use can be handed out a second time.
-/

namespace Lib

structure Pool where
  free : List Nat := []
  fresh : Nat := 0
  deriving DecidableEq, Repr

namespace Pool

def alloc (p : Pool) : Nat × Pool :=
  match p.free with
  | [] => (p.fresh, { p with fresh := p.fresh + 1 })
  | x :: free => (x, { p with free := free })

def release (p : Pool) (x : Nat) : Pool :=
  { p with free := x :: p.free }

/-- The record was handed out and not given back. -/
def Taken (p : Pool) (x : Nat) : Prop :=
  x < p.fresh ∧ x ∉ p.free

structure Sound (p : Pool) : Prop where
  nodup : p.free.Nodup
  below : ∀ x ∈ p.free, x < p.fresh

theorem sound_empty : Sound {} :=
  ⟨.nil, by simp⟩

theorem alloc_not_taken (p : Pool) : ¬ p.Taken p.alloc.1 := by
  intro taken
  unfold alloc at taken
  split at taken
  next => exact absurd taken.1 (Nat.lt_irrefl _)
  next x free eq => exact taken.2 (by simp [eq])

section

variable {p : Pool} (sound : p.Sound)

include sound

theorem alloc_sound : p.alloc.2.Sound := by
  unfold alloc
  split
  next eq =>
    exact ⟨sound.nodup, fun x listed => Nat.lt_succ_of_lt (sound.below x listed)⟩
  next x free eq =>
    have nodup := sound.nodup
    rw [eq] at nodup
    exact ⟨(List.nodup_cons.mp nodup).2, fun y listed => sound.below y (by simp [eq, listed])⟩

theorem alloc_taken_iff {y : Nat} : p.alloc.2.Taken y ↔ y = p.alloc.1 ∨ p.Taken y := by
  unfold alloc
  split
  next eq =>
    simp only [Taken, eq, List.not_mem_nil, not_false_eq_true, and_true]
    omega
  next x free eq =>
    have nodup := sound.nodup
    have below := sound.below
    rw [eq] at nodup below
    have out := (List.nodup_cons.mp nodup).1
    have bound := below x (List.mem_cons_self ..)
    simp only [Taken, eq, List.mem_cons, not_or]
    grind

theorem release_sound {x : Nat} (taken : p.Taken x) : (p.release x).Sound := by
  refine ⟨List.nodup_cons.mpr ⟨taken.2, sound.nodup⟩, fun y listed => ?_⟩
  rcases List.mem_cons.mp listed with rfl | listed
  · exact taken.1
  · exact sound.below y listed

omit sound in
theorem release_taken_iff {x y : Nat} : (p.release x).Taken y ↔ p.Taken y ∧ y ≠ x := by
  simp only [release, Taken, List.mem_cons, not_or]
  grind

end

end Pool

end Lib
