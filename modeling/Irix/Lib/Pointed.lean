import Mathlib.Logic.Function.Basic
import Mathlib.Data.List.Nodup
import Mathlib.Data.List.Count
import Mathlib.Tactic.Common

/-! # Singly linked lists

Nodes with a pointer to the next one.  `Path next p l e` is the list of the nodes
met from the pointer `p` on before the pointer `e`.
-/

namespace Lib.Pointed

open Function

universe u

variable {α : Type u}

def Path (next : α → Option α) : Option α → List α → Option α → Prop
  | p, [], e => p = e
  | p, a :: l, e => p = some a ∧ Path next (next a) l e

section

variable {next : α → Option α} {p e m : Option α} {l l' : List α} {a : α}

@[simp] theorem path_nil : Path next p [] e ↔ p = e := Iff.rfl

@[simp] theorem path_cons : Path next p (a :: l) e ↔ p = some a ∧ Path next (next a) l e := Iff.rfl

theorem path_append :
    Path next p (l ++ l') e ↔ ∃ m, Path next p l m ∧ Path next m l' e := by
  induction l generalizing p with
  | nil => simp
  | cons a l ih => simp only [List.cons_append, path_cons, ih, exists_and_left, and_assoc]

theorem Path.congr {next' : α → Option α} (path : Path next p l e)
    (same : ∀ a ∈ l, next' a = next a) : Path next' p l e := by
  induction l generalizing p with
  | nil => exact path
  | cons a l ih =>
    obtain ⟨here, rest⟩ := path
    refine ⟨here, ih ?_ fun b listed => same b (List.mem_cons_of_mem _ listed)⟩
    rw [same a (List.mem_cons_self ..)]
    exact rest

/-- The pointer to a list that is not empty is to its first node. -/
theorem Path.head (path : Path next p l none) : p = l.head? := by
  cases l with
  | nil => exact path
  | cons a l => exact path.1

/-- The pointers tell the list. -/
theorem Path.unique (path : Path next p l none) (path' : Path next p l' none) : l = l' := by
  induction l generalizing p l' with
  | nil =>
    cases l' with
    | nil => rfl
    | cons b l' => exact absurd (path.symm.trans path'.1) (by simp)
  | cons a l ih =>
    cases l' with
    | nil => exact absurd (path'.symm.trans path.1) (by simp)
    | cons b l' =>
      obtain rfl : a = b := Option.some.inj (path.1.symm.trans path'.1)
      rw [ih path.2 path'.2]

/-- A list that comes to an end meets no node twice. -/
theorem Path.nodup (path : Path next p l none) : l.Nodup := by
  induction l generalizing p with
  | nil => exact List.nodup_nil
  | cons a l ih =>
    refine List.nodup_cons.mpr ⟨fun again => ?_, ih path.2⟩
    obtain ⟨front, back, rfl⟩ := List.append_of_mem again
    obtain ⟨m, -, here, behind⟩ := path_append.mp path.2
    have same := Path.unique (p := next a) path.2 behind
    have := congrArg List.length same
    simp only [List.length_append, List.length_cons] at this
    omega

variable [DecidableEq α]

theorem Path.other (path : Path next p l e) (out : a ∉ l) (x : Option α) :
    Path (update next a x) p l e :=
  path.congr fun _ listed => update_of_ne (ne_of_mem_of_not_mem listed out) ..

/-- The pointer of the last node is changed. -/
theorem Path.redirect (path : Path next p (l ++ [a]) e) (out : a ∉ l) (x : Option α) :
    Path (update next a x) p (l ++ [a]) x := by
  obtain ⟨m, front, here, -⟩ := path_append.mp path
  exact path_append.mpr ⟨m, front.other out x, here, update_self ..⟩

end

/-! ## Lists with a pointer to the first node -/

/-- The pointer behind `p`, which is the one to the first node when there is no `p`. -/
def behind (first : Option α) (next : α → Option α) (p : Option α) : Option α :=
  match p with
  | none => first
  | some a => next a

section

variable {first : Option α} {next : α → Option α} {l l' : List α} {a : α}

theorem Path.behind_getLast (path : Path next first (l ++ l') none) :
    Path next (behind first next l.getLast?) l' none := by
  obtain ⟨m, front, rest⟩ := path_append.mp path
  rcases List.eq_nil_or_concat l with rfl | ⟨l, z, rfl⟩
  · rw [show first = m from front]
    exact rest
  · rw [List.concat_eq_append] at *
    obtain ⟨k, -, -, last⟩ := path_append.mp front
    rw [List.getLast?_append, List.getLast?_singleton]
    obtain rfl : next z = m := last
    exact rest

/-- The pointer behind the first part of a list is changed. -/
theorem Path.relink [DecidableEq α] (path : Path next first (l ++ l') none) (nodup : (l ++ l').Nodup)
    (x : Option α) :
    match l.getLast? with
    | none => l = [] ∧ Path next first l' none
    | some z => Path (update next z x) first l x ∧ Path (update next z x) (next z) l' none := by
  have rest := path.behind_getLast
  rcases List.eq_nil_or_concat l with rfl | ⟨l, z, rfl⟩
  · exact ⟨rfl, rest⟩
  · rw [List.concat_eq_append] at *
    obtain ⟨nodup, -, apart⟩ := List.nodup_append.mp nodup
    obtain ⟨m, front, -⟩ := path_append.mp path
    rw [List.getLast?_append, List.getLast?_singleton] at *
    have fresh : z ∉ l := by
      have apart := (List.nodup_append.mp nodup).2.2
      exact fun listed => apart z listed z (List.mem_singleton_self z) rfl
    refine ⟨front.redirect fresh x, Path.other rest (fun listed => ?_) x⟩
    exact apart z (by simp) z listed rfl

end

/-! ## Counting -/

section

variable {l : List α} {a : α}

/-- A node joins those that are counted. -/
theorem countP_join (p p' : α → Bool) (nodup : l.Nodup) (listed : a ∈ l) (out : p a = false)
    (joined : p' a = true) (same : ∀ b, b ≠ a → p' b = p b) : l.countP p' = l.countP p + 1 := by
  induction l with
  | nil => cases listed
  | cons b l ih =>
    obtain ⟨fresh, nodup⟩ := List.nodup_cons.mp nodup
    rw [List.countP_cons, List.countP_cons]
    rcases List.mem_cons.mp listed with rfl | listed
    · have rest : l.countP p' = l.countP p := by
        apply List.countP_congr
        intro c here
        rw [same c (ne_of_mem_of_not_mem here fresh)]
      simp [rest, out, joined]
    · have other : b ≠ a := (ne_of_mem_of_not_mem listed fresh).symm
      rw [ih nodup listed, same b other]
      omega

end

end Lib.Pointed
