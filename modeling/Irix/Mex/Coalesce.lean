import Irix.Mex.Pieces

/-! # Coalescing

What the operations on pieces leave alone, and the two passes of `wm_coalesce`:
they come to an end and every pixel stays covered as often as it was.
-/

namespace Irix.Mex

open Function
open Lib (Rect Pool)

/-! ## What stays when pieces are cut and handed on -/

/-- Only pieces and lists of pieces were changed, and where a window's pieces
    were, its record says so. -/
structure Recut (s s' : State) : Prop where
  font : s'.font = s.font
  wins : s'.wins = s.wins
  list : s'.list = s.list
  backgroundw : s'.backgroundw = s.backgroundw
  kept : ∀ w, s'.win w =
    { s.win w with
      xs := (s'.win w).xs, ys := (s'.win w).ys, newpieces := (s'.win w).newpieces }
  told : ∀ w, (s'.win w).newpieces = false → (s.win w).newpieces = false ∧
    (s'.win w).ys = (s.win w).ys ∧ ∀ p ∈ (s.win w).ys, s'.piece p = s.piece p

namespace Recut

variable {s s' s'' : State} {w : WinId}

theorem refl (s : State) : Recut s s :=
  ⟨rfl, rfl, rfl, rfl, fun _ => rfl, fun _ quiet => ⟨quiet, rfl, fun _ _ => rfl⟩⟩

theorem trans (left : Recut s s') (right : Recut s' s'') : Recut s s'' := by
  constructor
  case font => exact right.font.trans left.font
  case wins => exact right.wins.trans left.wins
  case list => exact right.list.trans left.list
  case backgroundw => exact right.backgroundw.trans left.backgroundw
  case kept =>
    intro w
    rw [right.kept w, left.kept w]
  case told =>
    intro w quiet
    obtain ⟨quiet', ys', same'⟩ := right.told w quiet
    obtain ⟨quiet, ys, same⟩ := left.told w quiet'
    refine ⟨quiet, ys'.trans ys, fun p listed => ?_⟩
    rw [same' p (ys ▸ listed), same p listed]

theorem rect (recut : Recut s s') (w : WinId) : (s'.win w).rect = (s.win w).rect := by
  rw [recut.kept w]

/-- One window's lists changed, with pieces no other window has. -/
theorem of_window (font : s'.font = s.font) (wins : s'.wins = s.wins) (list : s'.list = s.list)
    (backgroundw : s'.backgroundw = s.backgroundw)
    (kept : s'.win w = { s.win w with xs := (s'.win w).xs, ys := (s'.win w).ys, newpieces := true })
    (others : ∀ v, v ≠ w → s'.win v = s.win v)
    (pieces : ∀ v, v ≠ w → ∀ p ∈ (s.win v).ys, s'.piece p = s.piece p) : Recut s s' := by
  refine ⟨font, wins, list, backgroundw, fun v => ?_, fun v quiet => ?_⟩
  · by_cases same : v = w
    · rw [same, kept]
    · rw [others v same]
  · by_cases same : v = w
    · rw [same, kept] at quiet
      cases quiet
    · rw [others v same] at quiet ⊢
      exact ⟨quiet, rfl, pieces v same⟩

end Recut

theorem recut_addpiece {s : State} {p : PieceId} {w : WinId} : Recut s (addpiece p w s) := by
  refine .of_window (w := w) rfl rfl rfl rfl ?_ (fun _ other => addpiece_other other)
    fun _ _ _ _ => rfl
  simp only [addpiece, modify_win_self]

theorem recut_removepiece {s : State} {p : PieceId} {w : WinId} :
    Recut s (removepiece p w s) := by
  refine .of_window (w := w) rfl rfl rfl rfl ?_ (fun _ other => removepiece_other other)
    fun _ _ _ _ => rfl
  simp only [removepiece, modify_win_self]

theorem recut_setPiece {s : State} {p : PieceId} {r : Rect} (loose : s.Loose p) :
    Recut s (s.setPiece p r) :=
  ⟨rfl, rfl, rfl, rfl, fun _ => rfl, fun w quiet => ⟨quiet, rfl, fun _ listed =>
    setPiece_other (ne_of_mem_of_not_mem listed (loose w))⟩⟩

theorem recut_wmFreepiece {s : State} {p : PieceId} : Recut s (wmFreepiece p s) :=
  ⟨rfl, rfl, rfl, rfl, fun _ => rfl, fun _ quiet => ⟨quiet, rfl, fun _ _ => rfl⟩⟩

/-! ## Changing a piece out of the lists -/

section

variable {s : State} {w v : WinId} {p q : PieceId} {r t : Rect}

structure Readd (w : WinId) (p : PieceId) (r : Rect) (s s' : State) : Prop where
  tidy : Tidy s'
  recut : Recut s s'
  piece : s'.piece = update s.piece p r
  ys : (s'.win w).ys.Perm (s.win w).ys
  others : ∀ v, v ≠ w → s'.win v = s.win v
  taken : ∀ q, s'.pieces.Taken q ↔ s.pieces.Taken q
  total : ∀ f : Rect → Nat, f (s.piece p) + s'.total f w = f r + s.total f w

theorem readd_spec (tidy : Tidy s) (listed : p ∈ (s.win w).ys) (proper : r.Proper) :
    Readd w p r s (readd p r w s) := by
  have loose := tidy.loose_removepiece listed
  have loose' : ((removepiece p w s).setPiece p r).Loose p := loose
  have out : p ∉ ((removepiece p w s).win w).ys := loose w
  constructor
  case tidy =>
    apply (tidy.removepiece.setPiece_loose loose).addpiece loose'
    · rwa [setPiece_self]
    · exact tidy.taken w p listed
  case recut => exact recut_removepiece.trans ((recut_setPiece loose).trans recut_addpiece)
  case piece => rfl
  case ys =>
    rw [readd, addpiece_ys, setPiece_win, removepiece_ys]
    exact sortIn_perm.trans (List.perm_cons_erase listed).symm
  case others =>
    intro v other
    rw [readd, addpiece_other other, setPiece_win, removepiece_other other]
  case taken => exact fun _ => Iff.rfl
  case total =>
    intro f
    have old := total_removepiece (f := f) listed
    rw [readd, total_addpiece, setPiece_self, total_setPiece_out out]
    omega

/-- The window has other pieces which cover every pixel as often as before. -/
structure Retiled (w : WinId) (s s' : State) : Prop where
  tidy : Tidy s'
  recut : Recut s s'
  others : ∀ v, v ≠ w → s'.win v = s.win v
  pieces : ∀ v, v ≠ w → ∀ p ∈ (s.win v).ys, s'.piece p = s.piece p
  cover : ∀ x y, s'.cover w x y = s.cover w x y

namespace Retiled

variable {s' s'' : State}

theorem refl (tidy : Tidy s) : Retiled w s s :=
  ⟨tidy, .refl s, fun _ _ => rfl, fun _ _ _ _ => rfl, fun _ _ => rfl⟩

theorem trans (left : Retiled w s s') (right : Retiled w s' s'') : Retiled w s s'' := by
  constructor
  case tidy => exact right.tidy
  case recut => exact left.recut.trans right.recut
  case others => exact fun v other => (right.others v other).trans (left.others v other)
  case cover => exact fun x y => (right.cover x y).trans (left.cover x y)
  case pieces =>
    intro v other p listed
    rw [right.pieces v other p (by rwa [left.others v other]), left.pieces v other p listed]

theorem cover_all (retiled : Retiled w s s') (v : WinId) (x y : Int) :
    s'.cover v x y = s.cover v x y := by
  by_cases same : v = w
  · rw [same, retiled.cover]
  · exact total_congr (by rw [retiled.others v same]) (retiled.pieces v same)

end Retiled

/-- Two pieces of a window are changed so that they cover the same together. -/
theorem retiled_two (tidy : Tidy s) (listed : p ∈ (s.win w).ys) (listed' : q ∈ (s.win w).ys)
    (other : q ≠ p) (proper : r.Proper) (proper' : t.Proper)
    (count : ∀ x y, r.count x y + t.count x y = (s.piece p).count x y + (s.piece q).count x y) :
    Retiled w s (readd q t w (readd p r w s)) ∧
      ((readd q t w (readd p r w s)).win w).ys.Perm (s.win w).ys ∧
      ∀ f : Rect → Nat, f (s.piece p) + f (s.piece q) +
        (readd q t w (readd p r w s)).total f w = f r + f t + s.total f w := by
  have first := readd_spec tidy listed proper
  have second := readd_spec first.tidy (first.ys.mem_iff.mpr listed') proper'
  have here : (readd p r w s).piece q = s.piece q := by
    rw [first.piece, update_of_ne other]
  have total : ∀ f : Rect → Nat, f (s.piece p) + f (s.piece q) +
      (readd q t w (readd p r w s)).total f w = f r + f t + s.total f w := by
    intro f
    have one := first.total f
    have two := second.total f
    rw [here] at two
    omega
  refine ⟨?_, second.ys.trans first.ys, total⟩
  constructor
  case tidy => exact second.tidy
  case recut => exact first.recut.trans second.recut
  case others => exact fun v out => (second.others v out).trans (first.others v out)
  case pieces =>
    intro v out u there
    have apart : ∀ z ∈ (s.win w).ys, u ≠ z := fun z here same =>
      out (tidy.alone v w u there (same ▸ here))
    rw [second.piece, update_of_ne (apart q listed'), first.piece, update_of_ne (apart p listed)]
  case cover =>
    intro x y
    have sum := total fun r => r.count x y
    have same := count x y
    simp only [State.cover]
    omega

/-- Two pieces of a window become one. -/
theorem retiled_one (tidy : Tidy s) (listed : p ∈ (s.win w).ys) (listed' : q ∈ (s.win w).ys)
    (other : q ≠ p) (proper : r.Proper)
    (count : ∀ x y, r.count x y = (s.piece p).count x y + (s.piece q).count x y) :
    Retiled w s (wmFreepiece q (removepiece q w (readd p r w s))) ∧
      ((wmFreepiece q (removepiece q w (readd p r w s))).win w).ys.Perm ((s.win w).ys.erase q) ∧
      ∀ f : Rect → Nat, f (s.piece p) + f (s.piece q) +
        (wmFreepiece q (removepiece q w (readd p r w s))).total f w = f r + s.total f w := by
  have first := readd_spec tidy listed proper
  have there := first.ys.mem_iff.mpr listed'
  have here : (readd p r w s).piece q = s.piece q := by
    rw [first.piece, update_of_ne other]
  have total : ∀ f : Rect → Nat, f (s.piece p) + f (s.piece q) +
      (wmFreepiece q (removepiece q w (readd p r w s))).total f w = f r + s.total f w := by
    intro f
    have one := first.total f
    have two : f ((readd p r w s).piece q) + (removepiece q w (readd p r w s)).total f w =
      (readd p r w s).total f w := total_removepiece there
    rw [here] at two
    have free : (wmFreepiece q (removepiece q w (readd p r w s))).total f w =
      (removepiece q w (readd p r w s)).total f w := rfl
    omega
  refine ⟨?_, ?_, total⟩
  · constructor
    case tidy =>
      apply first.tidy.removepiece.wmFreepiece (first.tidy.loose_removepiece there)
      exact (first.taken q).mpr (tidy.taken w q listed')
    case recut => exact first.recut.trans (recut_removepiece.trans recut_wmFreepiece)
    case others =>
      intro v out
      exact (removepiece_other out).trans (first.others v out)
    case pieces =>
      intro v out u there
      have apart : u ≠ p := fun same => out (tidy.alone v w u there (same ▸ listed))
      exact (congrFun first.piece u).trans (update_of_ne apart ..)
    case cover =>
      intro x y
      have sum := total fun r => r.count x y
      have same := count x y
      simp only [State.cover]
      omega
  · have ys : ((wmFreepiece q (removepiece q w (readd p r w s))).win w).ys =
        ((readd p r w s).win w).ys.erase q := removepiece_ys
    rw [ys]
    exact first.ys.erase q

end

/-! ## A pass -/

/-- A pass walks over all pieces of the window and turns them the same way. -/
structure Pass.Lawful (pass : Pass) : Prop where
  chain : ∀ s, Tidy s → ∀ w, (pass.chain (s.win w)).Perm (s.win w).ys
  turn_turn : ∀ r, pass.turn (pass.turn r) = r
  proper : ∀ r, (pass.turn r).Proper ↔ r.Proper
  pixel : ∀ x y, ∃ x' y', ∀ r, (pass.turn r).count x y = r.count x' y'

theorem xPass_lawful : xPass.Lawful where
  chain _ tidy w := tidy.perm w
  turn_turn _ := rfl
  proper _ := Iff.rfl
  pixel x y := ⟨x, y, fun _ => rfl⟩

theorem yPass_lawful : yPass.Lawful where
  chain _ _ _ := .refl _
  turn_turn := Rect.flip_flip
  proper := Rect.flip_proper
  pixel x y := ⟨y, x, fun r => Rect.flip_count r x y⟩

namespace Pass.Lawful

variable {pass : Pass} (lawful : pass.Lawful) {s : State} {w : WinId} {a b : Rect}

include lawful

theorem count_one {r q q' : Rect}
    (count : ∀ x y, r.count x y = (pass.turn q).count x y + (pass.turn q').count x y) (x y : Int) :
    (pass.turn r).count x y = q.count x y + q'.count x y := by
  obtain ⟨x', y', same⟩ := lawful.pixel x y
  rw [same, count, ← same, ← same, lawful.turn_turn, lawful.turn_turn]

theorem count_two {r t q q' : Rect}
    (count : ∀ x y, r.count x y + t.count x y =
      (pass.turn q).count x y + (pass.turn q').count x y) (x y : Int) :
    (pass.turn r).count x y + (pass.turn t).count x y = q.count x y + q'.count x y := by
  obtain ⟨x', y', same⟩ := lawful.pixel x y
  rw [same, same, count, ← same, ← same, lawful.turn_turn, lawful.turn_turn]

end Pass.Lawful

def width (r : Rect) : Nat := (r.xmax - r.xmin + 1).toNat

/-- The width of the pieces as the pass sees them. -/
def Pass.width (pass : Pass) (w : WinId) (s : State) : Nat :=
  s.total (fun r => Mex.width (pass.turn r)) w

section

variable {a b : Rect}

/-- What the three cases of a pass do to two rectangles, one on top of the other
    and both beginning in the same column. -/
theorem stack_equal (left : a.xmin = b.xmin) (next : a.ymax = b.ymin - 1)
    (right : a.xmax = b.xmax) (proper : a.Proper) (proper' : b.Proper) :
    ({ a with ymax := b.ymax } : Rect).Proper ∧
      (∀ x y, ({ a with ymax := b.ymax } : Rect).count x y = a.count x y + b.count x y) ∧
      width { a with ymax := b.ymax } < width a + width b := by
  simp only [Rect.Proper, width] at *
  refine ⟨by omega, fun x y => ?_, by omega⟩
  simp only [Rect.count_eq]
  grind

theorem stack_narrow (left : a.xmin = b.xmin) (next : a.ymax = b.ymin - 1)
    (right : a.xmax < b.xmax) (proper : a.Proper) (proper' : b.Proper) :
    ({ a with ymax := b.ymax } : Rect).Proper ∧ ({ b with xmin := a.xmax + 1 } : Rect).Proper ∧
      (∀ x y, ({ a with ymax := b.ymax } : Rect).count x y +
        ({ b with xmin := a.xmax + 1 } : Rect).count x y = a.count x y + b.count x y) ∧
      width { a with ymax := b.ymax } + width { b with xmin := a.xmax + 1 } <
        width a + width b := by
  simp only [Rect.Proper, width] at *
  refine ⟨by omega, by omega, fun x y => ?_, by omega⟩
  simp only [Rect.count_eq]
  grind

theorem stack_wide (left : a.xmin = b.xmin) (next : a.ymax = b.ymin - 1)
    (right : b.xmax < a.xmax) (proper : a.Proper) (proper' : b.Proper) :
    ({ a with ymax := b.ymax, xmax := b.xmax } : Rect).Proper ∧
      ({ a with xmin := b.xmax + 1 } : Rect).Proper ∧
      (∀ x y, ({ a with ymax := b.ymax, xmax := b.xmax } : Rect).count x y +
        ({ a with xmin := b.xmax + 1 } : Rect).count x y = a.count x y + b.count x y) ∧
      width { a with ymax := b.ymax, xmax := b.xmax } + width { a with xmin := b.xmax + 1 } <
        width a + width b := by
  simp only [Rect.Proper, width] at *
  refine ⟨by omega, by omega, fun x y => ?_, by omega⟩
  simp only [Rect.count_eq]
  grind

end

section

variable {pass : Pass} {w : WinId}

/-- Where the pass goes on after the widths went down there is fuel enough. -/
theorem fuel_less {width width' pieces rest rest' fuel : Nat} (less : width' < width)
    (few : rest' ≤ pieces) (enough : width * (pieces + 1) + rest ≤ fuel + 1) :
    width' * (pieces + 1) + rest' ≤ fuel := by
  have step : (width' + 1) * (pieces + 1) ≤ width * (pieces + 1) := Nat.mul_le_mul_right _ less
  rw [Nat.add_mul, Nat.one_mul] at step
  omega

section

attribute [local simp] coalesceFrom

theorem coalesceFrom_last {fuel : Nat} {s : State} {wp : PieceId}
    (next : nextIn (pass.chain (s.win w)) wp = none) : coalesceFrom pass w fuel wp s = some s := by
  cases fuel <;> simp [next]

end

/-- The pass ends and no pixel is covered more or less often. -/
theorem coalesceFrom_spec (lawful : pass.Lawful) (pieces : Nat) {fuel : Nat} {s : State}
    {wp : PieceId} {done rest : List PieceId} (tidy : Tidy s)
    (chain : pass.chain (s.win w) = done ++ wp :: rest) (few : (s.win w).ys.length ≤ pieces)
    (enough : pass.width w s * (pieces + 1) + rest.length ≤ fuel) :
    ∃ s', coalesceFrom pass w fuel wp s = some s' ∧ Retiled w s s' := by
  have perm := lawful.chain s tidy w
  have nodup : (done ++ wp :: rest).Nodup := chain ▸ perm.nodup_iff.mpr (tidy.nodup w)
  have out : wp ∉ done := fun listed =>
    (List.nodup_append.mp nodup).2.2 wp listed wp (List.mem_cons_self ..) rfl
  induction fuel generalizing s wp done rest with
  | zero =>
    have last : rest = [] := List.eq_nil_of_length_eq_zero (by omega)
    subst last
    exact ⟨s, coalesceFrom_last (by rw [chain, nextIn_split out]; rfl), .refl tidy⟩
  | succ fuel ih =>
    cases rest with
    | nil =>
      exact ⟨s, coalesceFrom_last (by rw [chain, nextIn_split out]; rfl), .refl tidy⟩
    | cons wpgone rest =>
      have listed : wp ∈ (s.win w).ys := perm.mem_iff.mp (by simp [chain])
      have listed' : wpgone ∈ (s.win w).ys := perm.mem_iff.mp (by simp [chain])
      have other : wpgone ≠ wp := by
        have tail := (List.nodup_append.mp nodup).2.1
        intro same
        exact (List.nodup_cons.mp tail).1 (same ▸ List.mem_cons_self ..)
      have proper := (lawful.proper _).mpr (tidy.proper w wp listed)
      have proper' := (lawful.proper _).mpr (tidy.proper w wpgone listed')
      -- what is left to do after the two pieces were changed
      have go_on : ∀ s', Retiled w s s' → wp ∈ (s'.win w).ys →
          (s'.win w).ys.length ≤ (s.win w).ys.length → pass.width w s' < pass.width w s →
          ∃ s'', coalesceFrom pass w fuel wp s' = some s'' ∧ Retiled w s s'' := by
        intro s' retiled here shorter less
        have perm' := lawful.chain s' retiled.tidy w
        obtain ⟨done', rest', chain'⟩ := List.append_of_mem (perm'.mem_iff.mpr here)
        have length := perm'.length_eq
        rw [chain', List.length_append, List.length_cons] at length
        have nodup' : (done' ++ wp :: rest').Nodup :=
          chain' ▸ perm'.nodup_iff.mpr (retiled.tidy.nodup w)
        obtain ⟨s'', eq, again⟩ := ih retiled.tidy chain' (Nat.le_trans shorter few)
          (fuel_less less (by omega) enough) perm' nodup' fun listed =>
            (List.nodup_append.mp nodup').2.2 wp listed wp (List.mem_cons_self ..) rfl
        exact ⟨s'', eq, retiled.trans again⟩
      have next : nextIn (pass.chain (s.win w)) wp = some wpgone := by
        rw [chain, nextIn_split out]
        rfl
      rw [coalesceFrom.eq_def]
      simp only [next]
      split
      next stacked =>
        split
        next right =>
          obtain ⟨fine, count, less⟩ := stack_equal stacked.1 stacked.2 right proper proper'
          obtain ⟨retiled, ys, total⟩ := retiled_one tidy listed listed' other
            ((lawful.proper _).mpr fine) (lawful.count_one count)
          refine go_on _ retiled ?_ ?_ ?_
          · rw [ys.mem_iff]
            exact (List.mem_erase_of_ne other.symm).mpr listed
          · rw [ys.length_eq]
            exact List.length_erase_le
          · have sum := total fun r => width (pass.turn r)
            simp only [lawful.turn_turn] at sum
            simp only [Pass.width]
            omega
        next =>
          split
          next right =>
            obtain ⟨fine, fine', count, less⟩ :=
              stack_narrow stacked.1 stacked.2 right proper proper'
            obtain ⟨retiled, ys, total⟩ := retiled_two tidy listed listed' other
              ((lawful.proper _).mpr fine) ((lawful.proper _).mpr fine') (lawful.count_two count)
            refine go_on _ retiled (ys.mem_iff.mpr listed) (Nat.le_of_eq ys.length_eq) ?_
            have sum := total fun r => width (pass.turn r)
            simp only [lawful.turn_turn] at sum
            simp only [Pass.width]
            omega
          next =>
            obtain ⟨fine, fine', count, less⟩ :=
              stack_wide stacked.1 stacked.2 (by omega) proper proper'
            obtain ⟨retiled, ys, total⟩ := retiled_two tidy listed listed' other
              ((lawful.proper _).mpr fine) ((lawful.proper _).mpr fine') (lawful.count_two count)
            refine go_on _ retiled (ys.mem_iff.mpr listed) (Nat.le_of_eq ys.length_eq) ?_
            have sum := total fun r => width (pass.turn r)
            simp only [lawful.turn_turn] at sum
            simp only [Pass.width]
            omega
      next =>
        have chain' : pass.chain (s.win w) = (done ++ [wp]) ++ wpgone :: rest := by
          rw [chain, List.append_assoc]
          rfl
        have nodup' := chain' ▸ perm.nodup_iff.mpr (tidy.nodup w)
        refine ih tidy chain' few ?_ perm nodup' fun listed =>
          (List.nodup_append.mp nodup').2.2 wpgone listed wpgone (List.mem_cons_self ..) rfl
        rw [List.length_cons] at enough
        omega

theorem coalescePass_spec (lawful : pass.Lawful) {s : State} (tidy : Tidy s)
    (some_piece : (s.win w).ys ≠ []) :
    ∃ s', coalescePass pass w s = some s' ∧ Retiled w s s' := by
  have perm := lawful.chain s tidy w
  cases chain : pass.chain (s.win w) with
  | nil =>
    rw [chain] at perm
    exact absurd perm.symm.eq_nil some_piece
  | cons wp rest =>
    rw [coalescePass, chain]
    refine @coalesceFrom_spec pass w lawful (s.win w).ys.length _ s wp [] rest tidy chain
      (Nat.le_refl _) ?_
    have length := perm.length_eq
    rw [chain, List.length_cons] at length
    have fuel : coalesceFuel pass w s =
      pass.width w s * ((s.win w).ys.length + 1) + (s.win w).ys.length := rfl
    omega

end

/-- There is a piece wherever there was one. -/
theorem Retiled.some_piece {s s' : State} {w : WinId} (retiled : Retiled w s s') (tidy : Tidy s)
    (some_piece : (s.win w).ys ≠ []) : (s'.win w).ys ≠ [] := by
  intro gone
  obtain ⟨p, listed⟩ := List.exists_mem_of_ne_nil _ some_piece
  have corner := (tidy.proper w p listed).has_corner
  have none := retiled.cover (s.piece p).xmin (s.piece p).ymin
  have here : (s'.cover w (s.piece p).xmin (s.piece p).ymin) = 0 := by
    simp [State.cover, State.total, gone]
  have old := total_removepiece (s := s) (f := fun r =>
    r.count (s.piece p).xmin (s.piece p).ymin) listed
  have one : (s.piece p).count (s.piece p).xmin (s.piece p).ymin = 1 := by
    simp [Rect.count, corner]
  simp only [State.cover] at none here
  omega

/-- `wm_coalesce` comes to an end, and each pixel stays covered as often by the
    pieces of the window as it was. -/
theorem wmCoalesce_spec {s : State} {w : WinId} (tidy : Tidy s) :
    ∃ s', wmCoalesce w s = some s' ∧ Retiled w s s' := by
  rw [wmCoalesce]
  split
  next => exact ⟨s, rfl, .refl tidy⟩
  next some_piece =>
    obtain ⟨s₁, eq₁, retiled₁⟩ := coalescePass_spec xPass_lawful tidy some_piece
    have some_piece₁ := retiled₁.some_piece tidy some_piece
    obtain ⟨s₂, eq₂, retiled₂⟩ := coalescePass_spec yPass_lawful retiled₁.tidy some_piece₁
    refine ⟨s₂, ?_, retiled₁.trans retiled₂⟩
    simp only [eq₁, Option.bind_eq_bind, Option.bind_some, eq₂]

end Irix.Mex
