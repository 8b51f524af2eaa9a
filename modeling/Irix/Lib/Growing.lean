import Mathlib.Data.List.GetD
import Mathlib.Tactic.Common

/-! # Arrays that grow under writes

A write at any offset into a list: behind the end it leaves a gap of padding.
-/

namespace Lib.Growing

universe u

variable {α : Type u} (pad : α)

/-- `l` with `data` written at `off`. -/
def overwrite (l : List α) (off : Nat) (data : List α) : List α :=
  (List.range (max l.length (off + data.length))).map fun p =>
    if off ≤ p ∧ p < off + data.length then data.getD (p - off) pad else l.getD p pad

@[simp] theorem length_overwrite (l : List α) (off : Nat) (data : List α) :
    (overwrite pad l off data).length = max l.length (off + data.length) := by
  rw [overwrite, List.length_map, List.length_range]

theorem getD_overwrite {l data : List α} {off p : Nat}
    (inside : p < max l.length (off + data.length)) :
    (overwrite pad l off data).getD p pad =
      if off ≤ p ∧ p < off + data.length then data.getD (p - off) pad else l.getD p pad := by
  rw [List.getD_eq_getElem?_getD, overwrite, List.getElem?_map, List.getElem?_range inside]
  rfl

/-- A list is told by its length and what it holds. -/
theorem ext_getD {l l' : List α} (length : l.length = l'.length)
    (same : ∀ p < l.length, l.getD p pad = l'.getD p pad) : l = l' := by
  apply List.ext_getElem length
  intro p left right
  have here := same p left
  rwa [List.getD_eq_getElem _ _ left, List.getD_eq_getElem _ _ right] at here

/-- A write in two pieces. -/
theorem overwrite_append (l : List α) (off : Nat) (data more : List α) :
    overwrite pad (overwrite pad l off data) (off + data.length) more =
      overwrite pad l off (data ++ more) := by
  apply ext_getD pad
  · simp only [length_overwrite, List.length_append]
    omega
  · intro p inside
    rw [length_overwrite, length_overwrite] at inside
    have whole : p < max l.length (off + (data ++ more).length) := by
      rw [List.length_append]
      omega
    have second : p < max (overwrite pad l off data).length (off + data.length + more.length) := by
      rwa [length_overwrite]
    rw [getD_overwrite pad second, getD_overwrite pad whole, List.length_append]
    by_cases late : off + data.length ≤ p ∧ p < off + data.length + more.length
    · rw [if_pos late, if_pos (by omega), List.getD_append_right _ _ _ _ (by omega)]
      congr 1
      omega
    · rw [if_neg late]
      by_cases early : off ≤ p ∧ p < off + data.length
      · rw [getD_overwrite pad (by omega), if_pos early, if_pos (by omega),
          List.getD_append _ _ _ _ (by omega)]
      · rw [if_neg (by omega)]
        by_cases within : p < max l.length (off + data.length)
        · rw [getD_overwrite pad within, if_neg early]
        · rw [List.getD_eq_default _ _ (by rw [length_overwrite]; omega),
            List.getD_eq_default _ _ (by omega)]

end Lib.Growing
