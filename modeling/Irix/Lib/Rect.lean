import Mathlib.Data.List.Count
import Mathlib.Tactic.Common

/-! # Rectangles of pixels

A rectangle is given by its first and last column and row, both included, and
may be empty.  Tilings are compared by how many of their rectangles cover a
pixel, so the facts about cutting and joining are about these counts.
-/

namespace Lib

structure Rect where
  xmin : Int
  xmax : Int
  ymin : Int
  ymax : Int
  deriving DecidableEq, Repr

namespace Rect

def has (r : Rect) (x y : Int) : Bool :=
  decide (r.xmin ≤ x ∧ x ≤ r.xmax ∧ r.ymin ≤ y ∧ y ≤ r.ymax)

/-- There is a pixel in it. -/
def Proper (r : Rect) : Prop :=
  r.xmin ≤ r.xmax ∧ r.ymin ≤ r.ymax

instance (r : Rect) : Decidable r.Proper := inferInstanceAs (Decidable (_ ∧ _))

/-- One lies beyond an edge of the other. -/
def Apart (r q : Rect) : Prop :=
  r.xmin > q.xmax ∨ r.xmax < q.xmin ∨ r.ymin > q.ymax ∨ r.ymax < q.ymin

instance (r q : Rect) : Decidable (r.Apart q) := inferInstanceAs (Decidable (_ ∨ _ ∨ _ ∨ _))

/-- The rectangle with its two axes exchanged. -/
def flip (r : Rect) : Rect :=
  { xmin := r.ymin, xmax := r.ymax, ymin := r.xmin, ymax := r.xmax }

@[simp] theorem flip_flip (r : Rect) : r.flip.flip = r := rfl

@[simp] theorem flip_has (r : Rect) (x y : Int) : r.flip.has x y = r.has y x := by
  exact decide_eq_decide.mpr ⟨fun ⟨a, b, c, d⟩ => ⟨c, d, a, b⟩, fun ⟨a, b, c, d⟩ => ⟨c, d, a, b⟩⟩

@[simp] theorem flip_proper (r : Rect) : r.flip.Proper ↔ r.Proper := by
  simp only [Proper, flip, and_comm]

theorem has_iff {r : Rect} {x y : Int} :
    r.has x y = true ↔ r.xmin ≤ x ∧ x ≤ r.xmax ∧ r.ymin ≤ y ∧ y ≤ r.ymax := by
  simp only [has, decide_eq_true_eq]

theorem Proper.has_corner {r : Rect} (proper : r.Proper) : r.has r.xmin r.ymin = true := by
  simp only [has_iff, Proper] at *
  omega

theorem Apart.not_both {r q : Rect} (apart : r.Apart q) {x y : Int} (inside : q.has x y = true) :
    r.has x y = false := by
  rw [← Bool.not_eq_true, has_iff]
  rw [has_iff] at inside
  simp only [Apart] at apart
  omega

/-- How often the rectangle covers the pixel. -/
def count (r : Rect) (x y : Int) : Nat := (r.has x y).toNat

@[simp] theorem flip_count (r : Rect) (x y : Int) : r.flip.count x y = r.count y x := by
  simp only [count, flip_has]

theorem count_eq (r : Rect) (x y : Int) :
    r.count x y = if r.xmin ≤ x ∧ x ≤ r.xmax ∧ r.ymin ≤ y ∧ y ≤ r.ymax then 1 else 0 := by
  simp only [count, has]
  split <;> simp_all

/-- The part to the left of column `c`. -/
def left (r : Rect) (c : Int) : Rect := { r with xmax := c - 1 }

/-- The part from column `c` on. -/
def right (r : Rect) (c : Int) : Rect := { r with xmin := c }

/-- The part below row `c`. -/
def below (r : Rect) (c : Int) : Rect := { r with ymax := c - 1 }

/-- The part from row `c` on. -/
def above (r : Rect) (c : Int) : Rect := { r with ymin := c }

section

variable {r : Rect} {c x y : Int}

theorem count_below_above (low : r.ymin ≤ c) (high : c ≤ r.ymax + 1) :
    (r.below c).count x y + (r.above c).count x y = r.count x y := by
  simp only [count_eq, below, above]
  grind

theorem count_left_right (low : r.xmin ≤ c) (high : c ≤ r.xmax + 1) :
    (r.left c).count x y + (r.right c).count x y = r.count x y := by
  simp only [count_eq, left, right]
  grind

end

end Rect

end Lib
