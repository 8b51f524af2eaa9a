import Irix.Mex.Window

/-! # Lists of pieces

Every piece is in both lists of one window and in no other, the list by rows is
sorted, and no piece is empty.  The operations on pieces keep this; what they do
to the pixels a window shows is said with sums over its pieces.
-/

namespace Irix.Mex

open Function
open Lib (Rect Pool)

/-! ## Sorting in -/

/-- The order of the pieces in a list. -/
def Before (r : PieceId → Rect) (p q : PieceId) : Prop :=
  (r p).xmin < (r q).xmin ∨ (r p).xmin = (r q).xmin ∧ (r p).ymin ≤ (r q).ymin

def Less (r : PieceId → Rect) (p q : PieceId) : Prop :=
  (r p).xmin < (r q).xmin ∨ (r p).xmin = (r q).xmin ∧ (r p).ymin < (r q).ymin

section

variable {r : PieceId → Rect} {wp a : PieceId} {l : List PieceId}

theorem sortIn_perm : (sortIn r wp l).Perm (wp :: l) := by
  have inner : ∀ l' : List PieceId,
      (l'.takeWhile (sameColumnLess r wp) ++ wp :: l'.dropWhile (sameColumnLess r wp)).Perm
        (wp :: l') := by
    intro l'
    have perm := @List.perm_middle _ wp (l'.takeWhile (sameColumnLess r wp))
      (l'.dropWhile (sameColumnLess r wp))
    rwa [List.takeWhile_append_dropWhile] at perm
  have outer := (inner (l.dropWhile (columnLess r wp))).append_left (l.takeWhile (columnLess r wp))
  refine outer.trans ?_
  have perm := @List.perm_middle _ wp (l.takeWhile (columnLess r wp))
    (l.dropWhile (columnLess r wp))
  rwa [List.takeWhile_append_dropWhile] at perm

@[simp] theorem mem_sortIn {q : PieceId} : q ∈ sortIn r wp l ↔ q = wp ∨ q ∈ l := by
  rw [sortIn_perm.mem_iff, List.mem_cons]

theorem sortIn_nil : sortIn r wp [] = [wp] := rfl

theorem sortIn_cons_of_less (sorted : (a :: l).Pairwise (Before r)) (less : Less r a wp) :
    sortIn r wp (a :: l) = a :: sortIn r wp l := by
  rcases less with column | ⟨same, row⟩
  · have first : columnLess r wp a = true := decide_eq_true column
    simp only [sortIn, List.takeWhile_cons, List.dropWhile_cons, first, if_true, List.cons_append]
  · have first : columnLess r wp a = false := decide_eq_false (by omega)
    have second : sameColumnLess r wp a = true := decide_eq_true ⟨same, row⟩
    -- past `a` no piece is in a lesser column
    have behind : ∀ p ∈ l, columnLess r wp p = false := by
      intro p listed
      have before := (List.pairwise_cons.mp sorted).1 p listed
      simp only [Before] at before
      exact decide_eq_false (by omega)
    have rest : l.takeWhile (columnLess r wp) = [] ∧ l.dropWhile (columnLess r wp) = l := by
      cases l with
      | nil => exact ⟨rfl, rfl⟩
      | cons b l =>
        have here := behind b (List.mem_cons_self ..)
        simp only [List.takeWhile_cons, List.dropWhile_cons, here, Bool.false_eq_true, if_false,
          and_self]
    simp only [sortIn, List.takeWhile_cons, List.dropWhile_cons, first, second, rest.1, rest.2,
      Bool.false_eq_true, if_false, if_true, List.nil_append, List.cons_append]

theorem sortIn_cons_of_not_less (least : ¬ Less r a wp) :
    sortIn r wp (a :: l) = wp :: a :: l := by
  have first : columnLess r wp a = false := decide_eq_false fun column => least (.inl column)
  have second : sameColumnLess r wp a = false := decide_eq_false fun row => least (.inr row)
  simp only [sortIn, List.takeWhile_cons, List.dropWhile_cons, first, second, Bool.false_eq_true,
    if_false, List.nil_append]

theorem sortIn_sorted (sorted : l.Pairwise (Before r)) : (sortIn r wp l).Pairwise (Before r) := by
  induction l with
  | nil => simp [sortIn_nil]
  | cons a l ih =>
    obtain ⟨front, rest⟩ := List.pairwise_cons.mp sorted
    by_cases less : Less r a wp
    · rw [sortIn_cons_of_less sorted less, List.pairwise_cons]
      refine ⟨fun p listed => ?_, ih rest⟩
      rcases mem_sortIn.mp listed with rfl | listed
      · simp only [Less, Before] at less ⊢
        omega
      · exact front p listed
    · rw [sortIn_cons_of_not_less less, List.pairwise_cons]
      refine ⟨fun p listed => ?_, sorted⟩
      have next : Before r wp a := by
        simp only [Less, Before] at less ⊢
        omega
      rcases List.mem_cons.mp listed with rfl | listed
      · exact next
      · have later := front p listed
        simp only [Before] at next later ⊢
        omega

theorem sortIn_append {done rest : List PieceId} (sorted : (done ++ rest).Pairwise (Before r))
    (less : ∀ p ∈ done, Less r p wp) : sortIn r wp (done ++ rest) = done ++ sortIn r wp rest := by
  induction done with
  | nil => rfl
  | cons a done ih =>
    have inner := ih (List.pairwise_cons.mp sorted).2 fun p listed =>
      less p (List.mem_cons_of_mem _ listed)
    have outer := sortIn_cons_of_less sorted (less a (List.mem_cons_self ..))
    exact outer.trans (congrArg (a :: ·) inner)

end

@[simp] theorem nextIn_nil (p : PieceId) : nextIn [] p = none := rfl

theorem nextIn_cons (a p : PieceId) (l : List PieceId) :
    nextIn (a :: l) p = if a = p then l.head? else nextIn l p := by
  by_cases same : a = p
  · simp [nextIn, same]
  · simp [nextIn, same]

theorem nextIn_split {done rest : List PieceId} {p : PieceId} (out : p ∉ done) :
    nextIn (done ++ p :: rest) p = rest.head? := by
  induction done with
  | nil => simp [nextIn_cons]
  | cons a done ih =>
    have other : a ≠ p := fun same => out (same ▸ List.mem_cons_self ..)
    rw [List.cons_append, nextIn_cons, if_neg other,
      ih fun listed => out (List.mem_cons_of_mem _ listed)]

/-- The two pieces stand next to each other. -/
theorem nextIn_eq_some {l : List PieceId} {p q : PieceId} (next : nextIn l p = some q) :
    ∃ done rest, l = done ++ p :: q :: rest := by
  induction l with
  | nil => cases next
  | cons a l ih =>
    rw [nextIn_cons] at next
    split at next
    next same =>
      cases l with
      | nil => cases next
      | cons b l =>
        cases next
        exact ⟨[], l, by rw [same]; rfl⟩
    next =>
      obtain ⟨done, rest, eq⟩ := ih next
      exact ⟨a :: done, rest, congrArg (a :: ·) eq⟩

/-! ## What the operations write -/

section

variable {s : State} {w v : WinId} {p q : PieceId} {r : Rect} {f : Window → Window}

@[simp] theorem modify_win_self : (s.modify w f).win w = f (s.win w) := update_self ..

@[simp] theorem modify_win_other (other : v ≠ w) : (s.modify w f).win v = s.win v :=
  update_of_ne other ..

@[simp] theorem modify_piece : (s.modify w f).piece = s.piece := rfl

@[simp] theorem modify_pieces : (s.modify w f).pieces = s.pieces := rfl

@[simp] theorem setPiece_self : (s.setPiece p r).piece p = r := update_self ..

@[simp] theorem setPiece_other (other : q ≠ p) : (s.setPiece p r).piece q = s.piece q :=
  update_of_ne other ..

@[simp] theorem setPiece_win : (s.setPiece p r).win = s.win := rfl

@[simp] theorem setPiece_pieces : (s.setPiece p r).pieces = s.pieces := rfl

@[simp] theorem addpiece_piece : (addpiece p w s).piece = s.piece := rfl

@[simp] theorem addpiece_pieces : (addpiece p w s).pieces = s.pieces := rfl

@[simp] theorem addpiece_ys :
    ((addpiece p w s).win w).ys = sortIn (fun p => (s.piece p).flip) p (s.win w).ys := by
  simp [addpiece]

@[simp] theorem addpiece_other (other : v ≠ w) : (addpiece p w s).win v = s.win v :=
  modify_win_other other

@[simp] theorem removepiece_piece : (removepiece p w s).piece = s.piece := rfl

@[simp] theorem removepiece_pieces : (removepiece p w s).pieces = s.pieces := rfl

@[simp] theorem removepiece_ys : ((removepiece p w s).win w).ys = (s.win w).ys.erase p := by
  simp [removepiece]

@[simp] theorem removepiece_other (other : v ≠ w) : (removepiece p w s).win v = s.win v :=
  modify_win_other other

end

/-! ## Sums over the pieces of a window -/

namespace State

/-- The sum of a measure over the pieces of a window. -/
def total (s : State) (f : Rect → Nat) (w : WinId) : Nat :=
  ((s.win w).ys.map fun p => f (s.piece p)).sum

/-- How many pieces of the window cover the pixel. -/
def cover (s : State) (w : WinId) (x y : Int) : Nat := s.total (fun r => r.count x y) w

/-- The piece is in the lists of no window. -/
def Loose (s : State) (p : PieceId) : Prop := ∀ w, p ∉ (s.win w).ys

end State

section

variable {s : State} {w v : WinId} {p : PieceId} {r : Rect} {f : Rect → Nat}

theorem total_congr {s' : State} (ys : (s'.win w).ys.Perm (s.win w).ys)
    (same : ∀ p ∈ (s.win w).ys, s'.piece p = s.piece p) : s'.total f w = s.total f w := by
  have perm := ys.map fun p => f (s'.piece p)
  have eq : (s.win w).ys.map (fun p => f (s'.piece p)) = (s.win w).ys.map fun p => f (s.piece p) :=
    List.map_congr_left fun p listed => by rw [same p listed]
  rw [State.total, perm.sum_nat, eq, State.total]

theorem total_addpiece : (addpiece p w s).total f w = f (s.piece p) + s.total f w := by
  have sorted : (sortIn (fun p => (s.piece p).flip) p (s.win w).ys).Perm (p :: (s.win w).ys) :=
    sortIn_perm
  have perm := sorted.map fun p => f (s.piece p)
  simp only [State.total, addpiece_ys, addpiece_piece, perm.sum_nat, List.map_cons, List.sum_cons]

theorem total_removepiece (listed : p ∈ (s.win w).ys) :
    f (s.piece p) + (removepiece p w s).total f w = s.total f w := by
  have perm := (List.perm_cons_erase listed).map fun p => f (s.piece p)
  simp only [State.total, removepiece_ys, removepiece_piece, perm.sum_nat, List.map_cons,
    List.sum_cons]

theorem total_setPiece_out (out : p ∉ (s.win w).ys) :
    (s.setPiece p r).total f w = s.total f w :=
  total_congr (.refl _) fun _ listed => setPiece_other (ne_of_mem_of_not_mem listed out)

theorem total_setPiece_in (nodup : (s.win w).ys.Nodup) (listed : p ∈ (s.win w).ys) :
    f (s.piece p) + (s.setPiece p r).total f w = f r + s.total f w := by
  have perm := List.perm_cons_erase listed
  have out : p ∉ (s.win w).ys.erase p := nodup.not_mem_erase
  have same : ((s.win w).ys.erase p).map (fun q => f ((s.setPiece p r).piece q)) =
      ((s.win w).ys.erase p).map fun q => f (s.piece q) :=
    List.map_congr_left fun q listed => by rw [setPiece_other (ne_of_mem_of_not_mem listed out)]
  have new := (perm.map fun q => f ((s.setPiece p r).piece q)).sum_nat
  have old := (perm.map fun q => f (s.piece q)).sum_nat
  simp only [List.map_cons, List.sum_cons, setPiece_self, same] at new old
  simp only [State.total, setPiece_win, new, old]
  omega

end

/-! ## The invariant -/

structure Tidy (s : State) : Prop where
  perm : ∀ w, (s.win w).xs.Perm (s.win w).ys
  nodup : ∀ w, (s.win w).ys.Nodup
  xSorted : ∀ w, (s.win w).xs.Pairwise (Before s.piece)
  sorted : ∀ w, (s.win w).ys.Pairwise (Before fun p => (s.piece p).flip)
  proper : ∀ w, ∀ p ∈ (s.win w).ys, (s.piece p).Proper
  /-- No piece is in the lists of two windows. -/
  alone : ∀ w v p, p ∈ (s.win w).ys → p ∈ (s.win v).ys → w = v
  sound : s.pieces.Sound
  taken : ∀ w, ∀ p ∈ (s.win w).ys, s.pieces.Taken p

namespace Tidy

variable {s : State} {w v : WinId} {p : PieceId} {r : Rect}

theorem loose_of_not_taken (tidy : Tidy s) (free : ¬ s.pieces.Taken p) : s.Loose p :=
  fun w listed => free (tidy.taken w p listed)

/-- Only the window's lists are written. -/
theorem of_modify {f : Window → Window} (tidy : Tidy s)
    (perm : (f (s.win w)).xs.Perm (f (s.win w)).ys) (nodup : (f (s.win w)).ys.Nodup)
    (xSorted : (f (s.win w)).xs.Pairwise (Before s.piece))
    (sorted : (f (s.win w)).ys.Pairwise (Before fun p => (s.piece p).flip))
    (from_here : ∀ p ∈ (f (s.win w)).ys,
      p ∈ (s.win w).ys ∨ s.Loose p ∧ (s.piece p).Proper ∧ s.pieces.Taken p) :
    Tidy (s.modify w f) := by
  have lists : ∀ v, (s.modify w f).win v = if v = w then f (s.win w) else s.win v := by
    intro v
    split
    next same => rw [same, modify_win_self]
    next other => exact modify_win_other other
  have proper : ∀ p ∈ (f (s.win w)).ys, (s.piece p).Proper ∧ s.pieces.Taken p := by
    intro p listed
    rcases from_here p listed with old | ⟨-, new⟩
    · exact ⟨tidy.proper w p old, tidy.taken w p old⟩
    · exact new
  have alone : ∀ p ∈ (f (s.win w)).ys, ∀ v, p ∈ (s.win v).ys → w = v := by
    intro p listed v there
    rcases from_here p listed with old | ⟨loose, -⟩
    · exact tidy.alone w v p old there
    · exact absurd there (loose v)
  constructor
  case sound => exact tidy.sound
  case perm =>
    intro v
    rw [lists]
    split
    next => exact perm
    next => exact tidy.perm v
  case nodup =>
    intro v
    rw [lists]
    split
    next => exact nodup
    next => exact tidy.nodup v
  case xSorted =>
    intro v
    rw [lists]
    split
    next => exact xSorted
    next => exact tidy.xSorted v
  case sorted =>
    intro v
    rw [lists]
    split
    next => exact sorted
    next => exact tidy.sorted v
  case proper =>
    intro v p listed
    rw [lists] at listed
    split at listed
    next => exact (proper p listed).1
    next => exact tidy.proper v p listed
  case taken =>
    intro v p listed
    rw [lists] at listed
    split at listed
    next => exact (proper p listed).2
    next => exact tidy.taken v p listed
  case alone =>
    intro v u p there here
    rw [lists] at there here
    split at there <;> split at here
    next left right => exact left.trans right.symm
    next left _ => exact left.trans (alone p there u here)
    next _ right => exact (right.trans (alone p here v there)).symm
    next => exact tidy.alone v u p there here

theorem removepiece (tidy : Tidy s) : Tidy (removepiece p w s) := by
  refine tidy.of_modify ((tidy.perm w).erase p) ((tidy.nodup w).erase p)
    ((tidy.xSorted w).sublist List.erase_sublist)
    ((tidy.sorted w).sublist List.erase_sublist) fun q listed => ?_
  exact .inl (List.mem_of_mem_erase listed)

theorem addpiece (tidy : Tidy s) (loose : s.Loose p) (proper : (s.piece p).Proper)
    (taken : s.pieces.Taken p) : Tidy (addpiece p w s) := by
  have xs : (sortIn s.piece p (s.win w).xs).Perm (p :: (s.win w).xs) := sortIn_perm
  have ys : (sortIn (fun p => (s.piece p).flip) p (s.win w).ys).Perm (p :: (s.win w).ys) :=
    sortIn_perm
  apply tidy.of_modify
  · exact xs.trans (((tidy.perm w).cons p).trans ys.symm)
  · exact ys.nodup_iff.mpr (List.nodup_cons.mpr ⟨loose w, tidy.nodup w⟩)
  · exact sortIn_sorted (tidy.xSorted w)
  · exact sortIn_sorted (tidy.sorted w)
  · intro q listed
    rcases mem_sortIn.mp listed with rfl | listed
    · exact .inr ⟨loose, proper, taken⟩
    · exact .inl listed

/-- A piece may be changed while it is out of all lists. -/
theorem setPiece_loose (tidy : Tidy s) (loose : s.Loose p) : Tidy (s.setPiece p r) := by
  have same : ∀ w, ∀ q ∈ (s.win w).ys, (s.setPiece p r).piece q = s.piece q := by
    intro w q listed
    exact setPiece_other (ne_of_mem_of_not_mem listed (loose w))
  constructor
  case perm => exact tidy.perm
  case nodup => exact tidy.nodup
  case alone => exact tidy.alone
  case sound => exact tidy.sound
  case taken => exact tidy.taken
  case proper =>
    intro w q listed
    rw [same w q listed]
    exact tidy.proper w q listed
  case xSorted =>
    intro w
    refine (tidy.xSorted w).imp_of_mem fun {a b} left right before => ?_
    have left' := (tidy.perm w).mem_iff.mp left
    have right' := (tidy.perm w).mem_iff.mp right
    simpa only [Before, same w a left', same w b right'] using before
  case sorted =>
    intro w
    refine (tidy.sorted w).imp_of_mem fun {a b} left right before => ?_
    simpa only [Before, same w a left, same w b right] using before

/-- A piece may be made smaller at its far edges where it stands. -/
theorem setPiece_trim (tidy : Tidy s) (proper : r.Proper) (xmin : r.xmin = (s.piece p).xmin)
    (ymin : r.ymin = (s.piece p).ymin) : Tidy (s.setPiece p r) := by
  have same : ∀ q, ((s.setPiece p r).piece q).xmin = (s.piece q).xmin ∧
      ((s.setPiece p r).piece q).ymin = (s.piece q).ymin := by
    intro q
    by_cases here : q = p
    · rw [here, setPiece_self]
      exact ⟨xmin, ymin⟩
    · rw [setPiece_other here]
      exact ⟨rfl, rfl⟩
  constructor
  case perm => exact tidy.perm
  case nodup => exact tidy.nodup
  case alone => exact tidy.alone
  case sound => exact tidy.sound
  case taken => exact tidy.taken
  case proper =>
    intro w q listed
    by_cases here : q = p
    · rw [here, setPiece_self]
      exact proper
    · rw [setPiece_other here]
      exact tidy.proper w q listed
  case xSorted =>
    intro w
    refine (tidy.xSorted w).imp fun {a b} before => ?_
    simpa only [Before, same a, same b] using before
  case sorted =>
    intro w
    refine (tidy.sorted w).imp fun {a b} before => ?_
    simpa only [Before, Rect.flip, same a, same b] using before

theorem alloc (tidy : Tidy s) : Tidy { s with pieces := s.pieces.alloc.2 } := by
  constructor
  case perm => exact tidy.perm
  case nodup => exact tidy.nodup
  case alone => exact tidy.alone
  case xSorted => exact tidy.xSorted
  case sorted => exact tidy.sorted
  case proper => exact tidy.proper
  case sound => exact Pool.alloc_sound tidy.sound
  case taken =>
    intro w q listed
    exact (Pool.alloc_taken_iff tidy.sound).mpr (.inr (tidy.taken w q listed))

theorem wmFreepiece (tidy : Tidy s) (loose : s.Loose p) (taken : s.pieces.Taken p) :
    Tidy (wmFreepiece p s) := by
  constructor
  case perm => exact tidy.perm
  case nodup => exact tidy.nodup
  case alone => exact tidy.alone
  case xSorted => exact tidy.xSorted
  case sorted => exact tidy.sorted
  case proper => exact tidy.proper
  case sound => exact Pool.release_sound tidy.sound taken
  case taken =>
    intro w q listed
    exact Pool.release_taken_iff.mpr ⟨tidy.taken w q listed, ne_of_mem_of_not_mem listed (loose w)⟩

theorem loose_removepiece (tidy : Tidy s) (listed : p ∈ (s.win w).ys) :
    (Mex.removepiece p w s).Loose p := by
  intro v there
  by_cases same : v = w
  · subst same
    rw [removepiece_ys] at there
    exact (tidy.nodup v).not_mem_erase there
  · rw [removepiece_other same] at there
    exact same (tidy.alone v w p there listed)

end Tidy

end Irix.Mex
