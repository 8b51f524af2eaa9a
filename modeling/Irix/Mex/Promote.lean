import Irix.Mex.Coalesce

/-! # Promotion

What `wm_promote` does to the pieces: every piece of a window it passes is cut
along the edges of the promoted window, the parts inside are handed over, and the
promoted window is linked in at its new place.
-/

namespace Irix.Mex

open Function
open Lib (Rect Pool)
open Lib.Linked

/-! ## Cutting a piece where it stands -/

section

variable {s : State} {w w1 w2 v : WinId} {wp : PieceId} {r t : Rect} {done rest : List PieceId}

/-- The state after the piece `wp` was made smaller and the new piece sorted in
    behind it. -/
structure Cut (w : WinId) (wp : PieceId) (r t : Rect) (done rest : List PieceId) (s s' : State)
    (more : List PieceId) : Prop where
  retiled : Retiled w s s'
  ys : (s'.win w).ys = done ++ wp :: more
  more : more.Perm (s.pieces.alloc.1 :: rest)
  here : s'.piece wp = r
  new : s'.piece s.pieces.alloc.1 = t
  same : ∀ q ∈ done ++ rest, s'.piece q = s.piece q

theorem cut_spec (tidy : Tidy s) (ys : (s.win w).ys = done ++ wp :: rest) (proper : r.Proper)
    (proper' : t.Proper) (xmin : r.xmin = (s.piece wp).xmin) (ymin : r.ymin = (s.piece wp).ymin)
    (less : r.ymin < t.ymin ∨ r.ymin = t.ymin ∧ r.xmin < t.xmin)
    (count : ∀ x y, r.count x y + t.count x y = (s.piece wp).count x y) :
    ∃ more, Cut w wp r t done rest s (wmNewpiece w t (s.setPiece wp r)) more := by
  have listed : wp ∈ (s.win w).ys := by simp [ys]
  have trimmed := tidy.setPiece_trim (p := wp) (r := r) proper xmin ymin
  -- the new piece is in no list yet
  have untaken := Pool.alloc_not_taken s.pieces
  have loose : (s.setPiece wp r).Loose s.pieces.alloc.1 := tidy.loose_of_not_taken untaken
  have other : ∀ q ∈ (s.win w).ys, q ≠ s.pieces.alloc.1 := fun q there =>
    ne_of_mem_of_not_mem there (loose w)
  generalize eq : (({ s.setPiece wp r with pieces := s.pieces.alloc.2 } : State).setPiece
    s.pieces.alloc.1 t) = s₁
  have tidy₁ : Tidy s₁ := eq ▸ trimmed.alloc.setPiece_loose loose
  have win₁ : s₁.win = s.win := eq ▸ rfl
  have new₁ : s₁.piece s.pieces.alloc.1 = t := eq ▸ setPiece_self
  have here₁ : s₁.piece wp = r := by
    rw [← eq, setPiece_other (other wp listed)]
    exact setPiece_self
  have same₁ : ∀ q, q ≠ wp → q ≠ s.pieces.alloc.1 → s₁.piece q = s.piece q := by
    intro q out out'
    rw [← eq, setPiece_other out']
    exact setPiece_other out
  have result : wmNewpiece w t (s.setPiece wp r) = addpiece s.pieces.alloc.1 w s₁ := by
    rw [← eq]
    rfl
  have nodup := tidy.nodup w
  rw [ys] at nodup
  have apart : ∀ q ∈ done ++ rest, q ≠ wp := by
    have perm : (done ++ wp :: rest).Perm (wp :: (done ++ rest)) := List.perm_middle
    have out := (List.nodup_cons.mp (perm.nodup_iff.mp nodup)).1
    exact fun q there => ne_of_mem_of_not_mem there out
  have same : ∀ q ∈ done ++ rest, s₁.piece q = s.piece q := by
    intro q there
    have there' : q ∈ (s.win w).ys := by
      rw [ys, List.mem_append, List.mem_cons]
      rcases List.mem_append.mp there with front | behind
      · exact .inl front
      · exact .inr (.inr behind)
    exact same₁ q (apart q there) (other q there')
  refine ⟨sortIn (fun p => (s₁.piece p).flip) s.pieces.alloc.1 rest, ?_⟩
  rw [result]
  constructor
  case retiled =>
    constructor
    case tidy =>
      apply tidy₁.addpiece
      · rwa [State.Loose, win₁]
      · rwa [new₁]
      · rw [← eq]
        exact (Pool.alloc_taken_iff tidy.sound).mpr (.inl rfl)
    case recut =>
      refine .of_window (w := w) (eq ▸ rfl) (eq ▸ rfl) (eq ▸ rfl) (eq ▸ rfl) ?_ ?_ ?_
      · simp only [addpiece, modify_win_self, win₁]
      · intro v out
        rw [addpiece_other out, win₁]
      · intro v out q there
        have out' : q ≠ wp := fun same => out (tidy.alone v w q there (same ▸ listed))
        exact same₁ q out' (ne_of_mem_of_not_mem there (loose v))
    case others =>
      intro v out
      rw [addpiece_other out, win₁]
    case pieces =>
      intro v out q there
      have out' : q ≠ wp := fun same => out (tidy.alone v w q there (same ▸ listed))
      exact same₁ q out' (ne_of_mem_of_not_mem there (loose v))
    case cover =>
      intro x y
      have total₁ : s₁.total (fun r => r.count x y) w =
          (s.setPiece wp r).total (fun r => r.count x y) w := by
        rw [← eq]
        exact total_setPiece_out (loose w)
      have trim := total_setPiece_in (f := fun r => r.count x y) (r := r) (tidy.nodup w) listed
      have sum := count x y
      simp only [State.cover, total_addpiece, new₁, total₁]
      omega
  case ys =>
    have sorted : ((done ++ [wp]) ++ rest).Pairwise (Before fun p => (s₁.piece p).flip) := by
      have sorted := tidy₁.sorted w
      rwa [win₁, ys, List.append_cons] at sorted
    have behind : ∀ q ∈ done ++ [wp],
        Less (fun p => (s₁.piece p).flip) q s.pieces.alloc.1 := by
      intro q there
      have key : Less (fun p => (s₁.piece p).flip) wp s.pieces.alloc.1 := by
        simpa only [Less, Rect.flip, here₁, new₁] using less
      rcases List.mem_append.mp there with front | last
      · have sorted' := tidy₁.sorted w
        rw [win₁, ys] at sorted'
        have before := (List.pairwise_append.mp sorted').2.2 q front wp (List.mem_cons_self ..)
        simp only [Less, Before] at key before ⊢
        omega
      · rw [List.mem_singleton.mp last]
        exact key
    rw [addpiece_ys, win₁, ys, List.append_cons, sortIn_append sorted behind, ← List.append_cons]
  case more => exact sortIn_perm
  case here => exact here₁
  case new => exact new₁
  case same => exact same

end

/-! ## Handing the pieces over -/

/-- Pixels inside the rectangle of `w1` went from `w2` to it. -/
structure Handed (w1 w2 : WinId) (s s' : State) : Prop where
  tidy : Tidy s'
  recut : Recut s s'
  others : ∀ v, v ≠ w1 → v ≠ w2 → s'.win v = s.win v
  pieces : ∀ v, v ≠ w1 → v ≠ w2 → ∀ p ∈ (s.win v).ys, s'.piece p = s.piece p
  sum : ∀ x y, s'.cover w1 x y + s'.cover w2 x y = s.cover w1 x y + s.cover w2 x y
  outside : ∀ x y, (s.win w1).rect.has x y = false → s'.cover w1 x y = s.cover w1 x y

section

variable {s s' s'' : State} {w1 w2 v : WinId} {wp : PieceId}

namespace Handed

theorem trans (left : Handed w1 w2 s s') (right : Handed w1 w2 s' s'') : Handed w1 w2 s s'' := by
  constructor
  case tidy => exact right.tidy
  case recut => exact left.recut.trans right.recut
  case others =>
    exact fun v out out' => (right.others v out out').trans (left.others v out out')
  case pieces =>
    intro v out out' p listed
    rw [right.pieces v out out' p (by rwa [left.others v out out']), left.pieces v out out' p listed]
  case sum => exact fun x y => (right.sum x y).trans (left.sum x y)
  case outside =>
    intro x y out
    rw [right.outside x y (by rwa [left.recut.rect]), left.outside x y out]

theorem of_retiled (retiled : Retiled w2 s s') : Handed w1 w2 s s' := by
  constructor
  case tidy => exact retiled.tidy
  case recut => exact retiled.recut
  case others => exact fun v _ out => retiled.others v out
  case pieces => exact fun v _ out => retiled.pieces v out
  case sum => exact fun x y => by rw [retiled.cover_all, retiled.cover_all]
  case outside => exact fun x y _ => retiled.cover_all w1 x y

theorem cover_other (handed : Handed w1 w2 s s') (out : v ≠ w1) (out' : v ≠ w2) (x y : Int) :
    s'.cover v x y = s.cover v x y :=
  total_congr (by rw [handed.others v out out']) (handed.pieces v out out')

end Handed

/-- A piece inside the rectangle of `w1` is taken from `w2` and given to it. -/
theorem hand_spec (tidy : Tidy s) (other : w1 ≠ w2) (listed : wp ∈ (s.win w2).ys)
    (inside : ∀ x y, (s.win w1).rect.has x y = false → (s.piece wp).count x y = 0) :
    Handed w1 w2 s (addpiece wp w1 (removepiece wp w2 s)) := by
  have loose := tidy.loose_removepiece listed
  have here : ∀ f : Rect → Nat, (addpiece wp w1 (removepiece wp w2 s)).total f w1 =
      f (s.piece wp) + s.total f w1 := by
    intro f
    rw [total_addpiece, removepiece_piece]
    have same : (removepiece wp w2 s).total f w1 = s.total f w1 :=
      total_congr (by rw [removepiece_other other]) fun _ _ => rfl
    rw [same]
  have there : ∀ f : Rect → Nat, (addpiece wp w1 (removepiece wp w2 s)).total f w2 =
      (removepiece wp w2 s).total f w2 := fun f =>
    total_congr (by rw [addpiece_other other.symm]) fun _ _ => rfl
  constructor
  case tidy =>
    exact tidy.removepiece.addpiece loose (tidy.proper w2 wp listed) (tidy.taken w2 wp listed)
  case recut => exact recut_removepiece.trans recut_addpiece
  case others =>
    intro v out out'
    rw [addpiece_other out, removepiece_other out']
  case pieces => exact fun _ _ _ _ _ => rfl
  case sum =>
    intro x y
    have old := total_removepiece (f := fun r => r.count x y) listed
    simp only [State.cover, here, there]
    omega
  case outside =>
    intro x y out
    simp only [State.cover, here, inside x y out, Nat.zero_add]

/-! ## The loop over the pieces -/

/-- How many of the edges of `r1` the rectangle reaches over. -/
def sides (r1 r : Rect) : Nat :=
  (if r.ymin < r1.ymin then 1 else 0) + (if r.ymax > r1.ymax then 1 else 0) +
    (if r.xmin < r1.xmin then 1 else 0) + if r.xmax > r1.xmax then 1 else 0

/-- How many turns of the loop a piece takes at most, with all that is cut from
    it. -/
def turns (r1 r : Rect) : Nat :=
  if r.Apart r1 then 1 else 1 + 2 * sides r1 r

theorem turns_le (r1 r : Rect) : turns r1 r ≤ 9 := by
  simp only [turns, sides]
  grind

theorem turns_pos (r1 r : Rect) : 0 < turns r1 r := by
  rw [turns]
  split <;> omega

def turnsOf (s : State) (r1 : Rect) (l : List PieceId) : Nat :=
  (l.map fun p => turns r1 (s.piece p)).sum

theorem turnsOf_congr {r1 : Rect} {l : List PieceId}
    (same : ∀ p ∈ l, s'.piece p = s.piece p) : turnsOf s' r1 l = turnsOf s r1 l :=
  congrArg List.sum (List.map_congr_left fun p listed => by rw [same p listed])

theorem turnsOf_cons {r1 : Rect} {p : PieceId} {l : List PieceId} :
    turnsOf s r1 (p :: l) = turns r1 (s.piece p) + turnsOf s r1 l := by
  simp only [turnsOf, List.map_cons, List.sum_cons]

theorem turnsOf_perm {r1 : Rect} {l l' : List PieceId} (perm : l.Perm l') :
    turnsOf s r1 l = turnsOf s r1 l' :=
  (perm.map _).sum_nat

theorem turnsOf_le {r1 : Rect} {l : List PieceId} : turnsOf s r1 l ≤ 9 * l.length := by
  induction l with
  | nil => simp [turnsOf]
  | cons p l ih =>
    have here := turns_le r1 (s.piece p)
    rw [turnsOf_cons, List.length_cons]
    omega

/-- Along the bottom and the left edge the new piece lies on the side of `r1`. -/
structure FarCut (r1 q r t : Rect) : Prop where
  proper : r.Proper
  proper' : t.Proper
  xmin : r.xmin = q.xmin
  ymin : r.ymin = q.ymin
  less : r.ymin < t.ymin ∨ r.ymin = t.ymin ∧ r.xmin < t.xmin
  count : ∀ x y, r.count x y + t.count x y = q.count x y
  apart : r.Apart r1
  turns : turns r1 t < turns r1 q

/-- Along the top and the right edge the new piece lies beyond the edge. -/
structure NearCut (r1 q r t : Rect) : Prop where
  proper : r.Proper
  proper' : t.Proper
  xmin : r.xmin = q.xmin
  ymin : r.ymin = q.ymin
  less : r.ymin < t.ymin ∨ r.ymin = t.ymin ∧ r.xmin < t.xmin
  count : ∀ x y, r.count x y + t.count x y = q.count x y
  turns : turns r1 r + turns r1 t < turns r1 q

section

variable {r1 r : Rect}

theorem bottomCut (proper : r.Proper) (meet : ¬ r.Apart r1) (over_edge : r.ymin < r1.ymin) :
    FarCut r1 r { r with ymax := r1.ymin - 1 } { r with ymin := r1.ymin } := by
  simp only [Rect.Proper, Rect.Apart] at proper meet
  constructor
  case xmin => rfl
  case ymin => rfl
  case less => exact .inl over_edge
  case count => exact fun x y => Rect.count_below_above (by omega) (by omega)
  case turns =>
    simp only [turns, sides, Rect.Apart]
    grind
  all_goals
    simp only [Rect.Proper, Rect.Apart]
    omega

theorem leftCut (proper : r.Proper) (meet : ¬ r.Apart r1) (over_edge : r.xmin < r1.xmin) :
    FarCut r1 r { r with xmax := r1.xmin - 1 } { r with xmin := r1.xmin } := by
  simp only [Rect.Proper, Rect.Apart] at proper meet
  constructor
  case xmin => rfl
  case ymin => rfl
  case less => exact .inr ⟨rfl, over_edge⟩
  case count => exact fun x y => Rect.count_left_right (by omega) (by omega)
  case turns =>
    simp only [turns, sides, Rect.Apart]
    grind
  all_goals
    simp only [Rect.Proper, Rect.Apart]
    omega

theorem topCut (proper : r.Proper) (meet : ¬ r.Apart r1) (over_edge : r.ymax > r1.ymax) :
    NearCut r1 r { r with ymax := r1.ymax } { r with ymin := r1.ymax + 1 } := by
  simp only [Rect.Proper, Rect.Apart] at proper meet
  constructor
  case xmin => rfl
  case ymin => rfl
  case less => exact .inl (by simp only; omega)
  case count =>
    intro x y
    have cut := Rect.count_below_above (r := r) (c := r1.ymax + 1) (x := x) (y := y) (by omega)
      (by omega)
    simpa only [Rect.below, Rect.above, Int.add_sub_cancel] using cut
  case turns =>
    simp only [turns, sides, Rect.Apart]
    grind
  all_goals
    simp only [Rect.Proper]
    omega

theorem rightCut (proper : r.Proper) (meet : ¬ r.Apart r1) (over_edge : r.xmax > r1.xmax) :
    NearCut r1 r { r with xmax := r1.xmax } { r with xmin := r1.xmax + 1 } := by
  simp only [Rect.Proper, Rect.Apart] at proper meet
  constructor
  case xmin => rfl
  case ymin => rfl
  case less => exact .inr ⟨rfl, by simp only; omega⟩
  case count =>
    intro x y
    have cut := Rect.count_left_right (r := r) (c := r1.xmax + 1) (x := x) (y := y) (by omega)
      (by omega)
    simpa only [Rect.left, Rect.right, Int.add_sub_cancel] using cut
  case turns =>
    simp only [turns, sides, Rect.Apart]
    grind
  all_goals
    simp only [Rect.Proper]
    omega

end

/-- What the loop over the pieces of `w2` comes to from a piece on. -/
structure Split (w1 w2 : WinId) (affected : Bool) (s : State) (result : State × Bool) : Prop where
  handed : Handed w1 w2 s result.1
  apart : ∀ q ∈ (result.1.win w2).ys, (result.1.piece q).Apart (s.win w1).rect
  unaffected : result.2 = false → affected = false ∧ Retiled w2 s result.1

theorem Split.after {affected : Bool} {result : State × Bool} (retiled : Retiled w2 s s')
    (split : Split w1 w2 affected s' result) :
    Split w1 w2 affected s result := by
  refine ⟨(Handed.of_retiled retiled).trans split.handed, ?_, fun quiet => ?_⟩
  · rw [← retiled.recut.rect w1]
    exact split.apart
  · exact ⟨(split.unaffected quiet).1, retiled.trans (split.unaffected quiet).2⟩

theorem splitPieces_spec (other : w1 ≠ w2) {fuel : Nat} {s : State} {affected : Bool}
    {done rest : List PieceId} (tidy : Tidy s) (ys : (s.win w2).ys = done ++ rest)
    (passed : ∀ q ∈ done, (s.piece q).Apart (s.win w1).rect)
    (enough : turnsOf s (s.win w1).rect rest ≤ fuel) :
    ∃ result, splitPieces w1 w2 fuel rest.head? affected s = some result ∧
      Split w1 w2 affected s result := by
  induction fuel generalizing s affected done rest with
  | zero =>
    cases rest with
    | nil =>
      rw [List.append_nil] at ys
      refine ⟨(s, affected), rfl, Handed.of_retiled (.refl tidy), ?_, fun quiet =>
        ⟨quiet, .refl tidy⟩⟩
      rwa [ys]
    | cons wp rest =>
      have here := turns_pos (s.win w1).rect (s.piece wp)
      rw [turnsOf_cons] at enough
      omega
  | succ fuel ih =>
    cases rest with
    | nil =>
      rw [List.append_nil] at ys
      refine ⟨(s, affected), rfl, Handed.of_retiled (.refl tidy), ?_, fun quiet =>
        ⟨quiet, .refl tidy⟩⟩
      rwa [ys]
    | cons wp rest =>
      have listed : wp ∈ (s.win w2).ys := by simp [ys]
      have proper := tidy.proper w2 wp listed
      have nodup := tidy.nodup w2
      rw [ys] at nodup
      have out : wp ∉ done := fun there =>
        (List.nodup_append.mp nodup).2.2 wp there wp (List.mem_cons_self ..) rfl
      rw [turnsOf_cons] at enough
      -- the cut piece is done with, the new one is next
      have far : ∀ r t, FarCut (s.win w1).rect (s.piece wp) r t →
          ∃ result, splitPieces w1 w2 fuel
            (nextIn ((wmNewpiece w2 t (s.setPiece wp r)).win w2).ys wp) affected
            (wmNewpiece w2 t (s.setPiece wp r)) = some result ∧ Split w1 w2 affected s result := by
        intro r t far
        obtain ⟨more, cut⟩ := cut_spec tidy ys far.proper far.proper' far.xmin far.ymin far.less
          far.count
        have rect := cut.retiled.recut.rect w1
        generalize wmNewpiece w2 t (s.setPiece wp r) = s' at *
        rw [cut.ys, nextIn_split out]
        have ys' : (s'.win w2).ys = (done ++ [wp]) ++ more := by rw [cut.ys, List.append_cons]
        have passed' : ∀ q ∈ done ++ [wp], (s'.piece q).Apart (s'.win w1).rect := by
          intro q there
          rw [rect]
          rcases List.mem_append.mp there with front | last
          · rw [cut.same q (List.mem_append_left _ front)]
            exact passed q front
          · rw [List.mem_singleton.mp last, cut.here]
            exact far.apart
        have enough' : turnsOf s' (s'.win w1).rect more ≤ fuel := by
          rw [rect, turnsOf_perm cut.more, turnsOf_cons, cut.new,
            turnsOf_congr fun q there => cut.same q (List.mem_append_right _ there)]
          have fewer := far.turns
          omega
        obtain ⟨result, eq, split⟩ := ih cut.retiled.tidy ys' passed' enough'
        exact ⟨result, eq, split.after cut.retiled⟩
      -- the cut piece is looked at again, the new one lies beyond the edge
      have near : ∀ r t, NearCut (s.win w1).rect (s.piece wp) r t →
          ∃ result, splitPieces w1 w2 fuel (some wp) affected
            (wmNewpiece w2 t (s.setPiece wp r)) = some result ∧ Split w1 w2 affected s result := by
        intro r t near
        obtain ⟨more, cut⟩ := cut_spec tidy ys near.proper near.proper' near.xmin near.ymin
          near.less near.count
        have rect := cut.retiled.recut.rect w1
        generalize wmNewpiece w2 t (s.setPiece wp r) = s' at *
        have passed' : ∀ q ∈ done, (s'.piece q).Apart (s'.win w1).rect := by
          intro q there
          rw [rect, cut.same q (List.mem_append_left _ there)]
          exact passed q there
        have enough' : turnsOf s' (s'.win w1).rect (wp :: more) ≤ fuel := by
          rw [rect, turnsOf_cons, turnsOf_perm cut.more, turnsOf_cons, cut.here, cut.new,
            turnsOf_congr fun q there => cut.same q (List.mem_append_right _ there)]
          have fewer := near.turns
          omega
        obtain ⟨result, eq, split⟩ := ih cut.retiled.tidy cut.ys passed' enough'
        exact ⟨result, eq, split.after cut.retiled⟩
      simp only [List.head?_cons, splitPieces]
      split
      next apart =>
        rw [ys, nextIn_split out]
        have ys' : (s.win w2).ys = (done ++ [wp]) ++ rest := by rw [ys, List.append_cons]
        have here := turns_pos (s.win w1).rect (s.piece wp)
        refine ih tidy ys' (fun q there => ?_) (by omega)
        rcases List.mem_append.mp there with front | last
        · exact passed q front
        · rwa [List.mem_singleton.mp last]
      next meet =>
        split
        next bottom => exact far _ _ (bottomCut proper meet bottom)
        next above =>
          split
          next top => exact near _ _ (topCut proper meet top)
          next below =>
            split
            next left => exact far _ _ (leftCut proper meet left)
            next behind =>
              split
              next right => exact near _ _ (rightCut proper meet right)
              next before =>
                -- the piece falls entirely into the window of `w1`
                have inside : ∀ x y, (s.win w1).rect.has x y = false →
                    (s.piece wp).count x y = 0 := by
                  intro x y outside
                  rw [← Bool.not_eq_true, Rect.has_iff] at outside
                  rw [Rect.count_eq, if_neg]
                  omega
                have handed := hand_spec tidy other listed inside
                rw [ys, nextIn_split out]
                have ys' : ((addpiece wp w1 (removepiece wp w2 s)).win w2).ys = done ++ rest := by
                  rw [addpiece_other other.symm, removepiece_ys, ys, List.erase_append_right _ out,
                    List.erase_cons_head]
                have rect := handed.recut.rect w1
                have here := turns_pos (s.win w1).rect (s.piece wp)
                have same : turnsOf (addpiece wp w1 (removepiece wp w2 s)) (s.win w1).rect rest =
                  turnsOf s (s.win w1).rect rest := rfl
                obtain ⟨result, eq, split⟩ := @ih _ true _ _ handed.tidy ys'
                  (by rw [rect]; exact passed) (by rw [rect, same]; omega)
                refine ⟨result, eq, handed.trans split.handed, ?_, fun quiet => ?_⟩
                · rw [← rect]
                  exact split.apart
                · cases (split.unaffected quiet).1

end

end Irix.Mex
