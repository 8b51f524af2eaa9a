import Mathlib.Algebra.GroupWithZero.Nat
import Mathlib.Data.List.Nodup
import Mathlib.Tactic.Common

/-! # A list scattered over chunks of a store

A chunk is a place and a length.  A list is written over a sequence of chunks,
each taking what fits in it, and read back from them in the same order.
-/

namespace Lib.Scatter

universe u

variable {α : Type u}

/-- A store of numbered cells. -/
abbrev Store (α : Type u) := Nat → α

/-- Write the cells of a list from cell `b` on. -/
def put (st : Store α) (b : Nat) (xs : List α) : Store α :=
  fun i => if b ≤ i then (xs[i - b]?).getD (st i) else st i

/-- The `n` cells from cell `b` on. -/
def get (st : Store α) (b n : Nat) : List α := (List.range n).map fun k => st (b + k)

/-- The cells of a chunk. -/
def cells (chunk : Nat × Nat) : List Nat := List.range' chunk.1 chunk.2

def scatter : List (Nat × Nat) → List α → Store α → Store α
  | [], _, st => st
  | chunk :: chunks, xs, st =>
      scatter chunks (xs.drop chunk.2) (put st chunk.1 (xs.take chunk.2))

def gather (st : Store α) : List (Nat × Nat) → Nat → List α
  | [], _ => []
  | chunk :: chunks, n => get st chunk.1 (min chunk.2 n) ++ gather st chunks (n - chunk.2)

/-- The cells of all chunks together. -/
def capacity (chunks : List (Nat × Nat)) : Nat := (chunks.map Prod.snd).sum

@[simp] theorem capacity_nil : capacity [] = 0 := rfl

@[simp] theorem capacity_cons (chunk : Nat × Nat) (chunks : List (Nat × Nat)) :
    capacity (chunk :: chunks) = chunk.2 + capacity chunks := List.sum_cons

@[simp] theorem length_get (st : Store α) (b n : Nat) : (get st b n).length = n := by
  simp only [get, List.length_map, List.length_range]

theorem put_outside {st : Store α} {b i : Nat} {xs : List α} (out : i < b ∨ b + xs.length ≤ i) :
    put st b xs i = st i := by
  unfold put
  split
  next inside =>
    rw [List.getElem?_eq_none (by omega)]
    rfl
  next => rfl

theorem put_replicate (st : Store α) (b n : Nat) (x : α) :
    put st b (List.replicate n x) = fun i => if b ≤ i ∧ i < b + n then x else st i := by
  funext i
  simp only [put, List.getElem?_replicate]
  grind

theorem get_put (st : Store α) (b : Nat) (xs : List α) : get (put st b xs) b xs.length = xs := by
  apply List.ext_getElem
  · simp only [get, List.length_map, List.length_range]
  · intro k inside inside'
    simp only [get, List.getElem_map, List.getElem_range, put, Nat.le_add_right, if_true,
      Nat.add_sub_cancel_left, List.getElem?_eq_getElem inside', Option.getD_some]

theorem get_congr {st st' : Store α} {b n : Nat} (same : ∀ k < n, st (b + k) = st' (b + k)) :
    get st b n = get st' b n :=
  List.map_congr_left fun k mem => same k (List.mem_range.mp mem)

@[simp] theorem get_zero (st : Store α) (b : Nat) : get st b 0 = [] := rfl

theorem get_add (st : Store α) (b m n : Nat) : get st b (m + n) = get st b m ++ get st (b + m) n := by
  simp only [get, List.range_add, List.map_append, List.map_map]
  congr 1
  exact List.map_congr_left fun k _ => congrArg st (Nat.add_assoc b m k).symm

theorem put_get (st : Store α) (b n : Nat) : put st b (get st b n) = st := by
  funext i
  simp only [put, get, List.getElem?_map]
  split
  next low =>
    rcases Nat.lt_or_ge (i - b) n with inside | out
    · simp only [List.getElem?_range inside, Option.map_some, Option.getD_some]
      rw [Nat.add_sub_cancel' low]
    · rw [List.getElem?_eq_none (by rw [List.length_range]; exact out)]
      rfl
  next => rfl

theorem getElem_get {st : Store α} {b n i : Nat} (inside : i < (get st b n).length) :
    (get st b n)[i] = st (b + i) := by
  simp only [get, List.getElem_map, List.getElem_range]

theorem take_get (st : Store α) (b : Nat) {m n : Nat} (le : m ≤ n) : (get st b n).take m = get st b m := by
  obtain ⟨k, rfl⟩ := Nat.exists_eq_add_of_le le
  rw [get_add]
  exact List.take_left' (length_get st b m)

@[simp] theorem gather_zero (st : Store α) (chunks : List (Nat × Nat)) : gather st chunks 0 = [] := by
  induction chunks with
  | nil => rfl
  | cons chunk chunks ih => simp only [gather, Nat.min_zero, get_zero, Nat.zero_sub, ih, List.append_nil]

theorem gather_congr {st st' : Store α} {chunks : List (Nat × Nat)}
    (same : ∀ i ∈ chunks.flatMap cells, st i = st' i) (n : Nat) :
    gather st chunks n = gather st' chunks n := by
  induction chunks generalizing n with
  | nil => rfl
  | cons chunk chunks ih =>
      simp only [List.flatMap_cons, List.mem_append] at same
      have head : get st chunk.1 (min chunk.2 n) = get st' chunk.1 (min chunk.2 n) := by
        apply get_congr
        intro k inside
        apply same
        exact Or.inl (List.mem_range'_1.mpr (by omega))
      rw [gather, gather, head, ih fun i mem => same i (Or.inr mem)]

theorem length_gather {chunks : List (Nat × Nat)} {n : Nat} (st : Store α)
    (room : n ≤ capacity chunks) : (gather st chunks n).length = n := by
  induction chunks generalizing n with
  | nil => exact (Nat.le_zero.mp room).symm
  | cons chunk chunks ih =>
      rw [capacity_cons] at room
      rw [gather, List.length_append, length_get, ih (by omega)]
      omega

/-- Cells that fit in the first chunk. -/
theorem gather_first {st : Store α} {chunk : Nat × Nat} {chunks : List (Nat × Nat)} {n : Nat}
    (fits : n ≤ chunk.2) : gather st (chunk :: chunks) n = get st chunk.1 n := by
  rw [gather, Nat.min_eq_right fits, Nat.sub_eq_zero_of_le fits, gather_zero, List.append_nil]

/-- Cells of no chunk keep their contents. -/
theorem scatter_outside {st : Store α} {i : Nat} (chunks : List (Nat × Nat)) (xs : List α)
    (out : ∀ chunk ∈ chunks, i ∉ cells chunk) : scatter chunks xs st i = st i := by
  induction chunks generalizing xs st with
  | nil => rfl
  | cons chunk chunks ih =>
      have here := out chunk (List.mem_cons_self ..)
      rw [cells, List.mem_range'_1] at here
      have taken := List.length_take_le chunk.2 xs
      rw [scatter, ih _ fun other mem => out other (List.mem_cons_of_mem _ mem)]
      exact put_outside (by omega)

/-- What was scattered over chunks that do not overlap is gathered again. -/
theorem gather_scatter {st : Store α} {chunks : List (Nat × Nat)} {xs : List α}
    (apart : (chunks.flatMap cells).Nodup) (room : xs.length ≤ capacity chunks) :
    gather (scatter chunks xs st) chunks xs.length = xs := by
  induction chunks generalizing xs st with
  | nil =>
      cases xs with
      | nil => rfl
      | cons x xs => exact absurd room (Nat.not_succ_le_zero _)
  | cons chunk chunks ih =>
      rw [List.flatMap_cons, List.nodup_append'] at apart
      obtain ⟨_, others, disjoint⟩ := apart
      rw [capacity_cons] at room
      rw [gather, scatter]
      have first : get (scatter chunks (xs.drop chunk.2) (put st chunk.1 (xs.take chunk.2)))
          chunk.1 (min chunk.2 xs.length) = xs.take chunk.2 := by
        rw [← List.length_take]
        refine Eq.trans (get_congr fun k less => ?_) (get_put st chunk.1 (xs.take chunk.2))
        rw [List.length_take] at less
        apply scatter_outside
        intro other mem inside
        have here : chunk.1 + k ∈ cells chunk := List.mem_range'_1.mpr (by omega)
        exact disjoint here (List.mem_flatMap.mpr ⟨other, mem, inside⟩)
      have rest : gather (scatter chunks (xs.drop chunk.2) (put st chunk.1 (xs.take chunk.2))) chunks
          (xs.drop chunk.2).length = xs.drop chunk.2 := ih others (by rw [List.length_drop]; omega)
      rw [List.length_drop] at rest
      rw [first, rest, List.take_append_drop]

end Lib.Scatter
