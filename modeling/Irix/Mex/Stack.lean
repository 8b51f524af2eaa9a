import Irix.Mex.Promote

/-! # The stack of windows

The windows from front to back, each showing what the ones in front of it leave
of the screen.  Promotion moves one window forward in the stack and keeps this.
-/

namespace Irix.Mex

open Function
open Lib (Rect Pool)
open Lib.Linked

/-! ## The windows a promoted one passes -/

/-- The windows of `mid` were passed by `w1`: it got all they showed inside its
    rectangle. -/
structure Passed (w1 : WinId) (mid : List WinId) (s s' : State) : Prop where
  tidy : Tidy s'
  recut : Recut s s'
  gained : ∀ x y, (s.win w1).rect.has x y = true →
    s'.cover w1 x y = s.cover w1 x y + (mid.map fun v => s.cover v x y).sum
  lost : ∀ x y, (s.win w1).rect.has x y = true → ∀ v ∈ mid, s'.cover v x y = 0
  outside : ∀ x y, (s.win w1).rect.has x y = false → ∀ v, s'.cover v x y = s.cover v x y
  others : ∀ v, v ≠ w1 → v ∉ mid → ∀ x y, s'.cover v x y = s.cover v x y

section

variable {s s' s'' : State} {w1 v : WinId} {mid post : List WinId}

/-- The pieces of the window lie in its rectangle. -/
def Within (s : State) (v : WinId) : Prop :=
  ∀ x y, (s.win v).rect.has x y = false → s.cover v x y = 0

namespace Passed

theorem none (tidy : Tidy s) : Passed w1 [] s s :=
  ⟨tidy, .refl s, fun _ _ _ => rfl, by simp, fun _ _ _ _ => rfl, fun _ _ _ _ _ => rfl⟩

theorem cons (other : v ≠ w1) (out : v ∉ mid) (front : w1 ∉ mid) (first : Passed w1 [v] s s')
    (rest : Passed w1 mid s' s'') : Passed w1 (v :: mid) s s'' := by
  have rect := first.recut.rect w1
  constructor
  case tidy => exact rest.tidy
  case recut => exact first.recut.trans rest.recut
  case gained =>
    intro x y inside
    have same : mid.map (fun u => s'.cover u x y) = mid.map fun u => s.cover u x y := by
      apply List.map_congr_left
      intro u listed
      refine first.others u (ne_of_mem_of_not_mem listed front) ?_ x y
      rw [List.mem_singleton]
      exact ne_of_mem_of_not_mem listed out
    rw [rest.gained x y (by rwa [rect]), first.gained x y inside, same]
    simp only [List.map_cons, List.map_nil, List.sum_cons, List.sum_nil, Nat.add_zero,
      Nat.add_assoc]
  case lost =>
    intro x y inside u listed
    rcases List.mem_cons.mp listed with rfl | listed
    · rw [rest.others u other out]
      exact first.lost x y inside u (List.mem_cons_self ..)
    · exact rest.lost x y (by rwa [rect]) u listed
  case outside =>
    intro x y outside u
    rw [rest.outside x y (by rwa [rect]), first.outside x y outside]
  case others =>
    intro u here there x y
    rw [List.mem_cons, not_or] at there
    rw [rest.others u here there.2, first.others u here (by simpa using there.1)]

end Passed

theorem cover_eq_zero_iff {x y : Int} :
    s.cover v x y = 0 ↔ ∀ p ∈ (s.win v).ys, (s.piece p).has x y = false := by
  rw [State.cover, State.total, List.sum_eq_zero_iff_forall_eq_nat]
  simp [Rect.count]

/-- One turn of the loop of `wm_promote` over the windows. -/
theorem pass_one (tidy : Tidy s) (other : w1 ≠ v) (within : Within s v) :
    (s.win v).rect.Apart (s.win w1).rect ∧ Passed w1 [v] s s ∨
      ¬ (s.win v).rect.Apart (s.win w1).rect ∧
        ∃ s₁ affectedthisone s₂,
          splitPieces w1 v (splitFuel v s) (s.win v).ys.head? false s = some (s₁, affectedthisone) ∧
          (if affectedthisone then wmCoalesce v s₁ else some s₁) = some s₂ ∧
          Passed w1 [v] s s₂ ∧
          (affectedthisone = false → ∀ x y, s₂.cover w1 x y = s.cover w1 x y) := by
  by_cases apart : (s.win v).rect.Apart (s.win w1).rect
  · refine .inl ⟨apart, tidy, .refl s, fun x y inside => ?_, fun x y inside u listed => ?_,
      fun _ _ _ _ => rfl, fun _ _ _ _ _ => rfl⟩
    · have none := within x y (apart.not_both inside)
      simp [none]
    · rw [List.mem_singleton.mp listed]
      exact within x y (apart.not_both inside)
  · obtain ⟨⟨s₁, affectedthisone⟩, eq₁, split⟩ := @splitPieces_spec w1 v other (splitFuel v s) s false [] _ tidy
      (List.nil_append _).symm (by simp) turnsOf_le
    have coalesced : ∃ s₂, (if affectedthisone then wmCoalesce v s₁ else some s₁) = some s₂ ∧
        Retiled v s₁ s₂ := by
      split
      next => exact wmCoalesce_spec split.handed.tidy
      next => exact ⟨s₁, rfl, .refl split.handed.tidy⟩
    obtain ⟨s₂, eq₂, retiled⟩ := coalesced
    -- nothing is left of the window inside the rectangle
    have none : ∀ x y, (s.win w1).rect.has x y = true → s₁.cover v x y = 0 := by
      intro x y inside
      exact cover_eq_zero_iff.mpr fun p listed => (split.apart p listed).not_both inside
    refine .inr ⟨apart, s₁, affectedthisone, s₂, eq₁, eq₂, ?_, fun quiet x y => ?_⟩
    · constructor
      case tidy => exact retiled.tidy
      case recut => exact split.handed.recut.trans retiled.recut
      case gained =>
        intro x y inside
        have sum := split.handed.sum x y
        have gone := none x y inside
        simp only at sum
        simp only [retiled.cover_all, List.map_cons, List.map_nil, List.sum_cons, List.sum_nil]
        omega
      case lost =>
        intro x y inside u listed
        rw [List.mem_singleton.mp listed, retiled.cover_all]
        exact none x y inside
      case outside =>
        intro x y outside u
        have sum := split.handed.sum x y
        have same := split.handed.outside x y outside
        simp only at sum same
        rw [retiled.cover_all]
        by_cases first : u = w1
        · rw [first, same]
        · by_cases second : u = v
          · rw [second]
            omega
          · exact split.handed.cover_other first second x y
      case others =>
        intro u first second x y
        rw [retiled.cover_all]
        exact split.handed.cover_other first (by simpa using second) x y
    · rw [retiled.cover_all, (split.unaffected quiet).2.cover_all]

/-- The loop of `wm_promote` over the windows reaches `w1`. -/
theorem promoteOver_spec {fuel : Nat} {affected : Bool} {pre : List WinId} (tidy : Tidy s)
    (chain : Chain s.list (pre ++ (mid ++ w1 :: post))) (within : ∀ v ∈ mid, Within s v)
    (enough : mid.length < fuel) :
    ∃ s' affected', promoteOver w1 fuel (mid ++ w1 :: post).head? affected s =
        some (s', affected', true) ∧ Passed w1 mid s s' ∧
      (affected' = false → affected = false ∧ ∀ x y, s'.cover w1 x y = s.cover w1 x y) := by
  induction mid generalizing s fuel affected pre with
  | nil =>
    cases fuel with
    | zero => omega
    | succ fuel =>
      refine ⟨s, affected, ?_, .none tidy, fun quiet => ⟨quiet, fun _ _ => rfl⟩⟩
      simp [promoteOver]
  | cons v mid ih =>
    cases fuel with
    | zero => omega
    | succ fuel =>
      have chain' : Chain s.list ((pre ++ [v]) ++ (mid ++ w1 :: post)) := by
        rwa [List.append_assoc]
      have next : s.list.next v = (mid ++ w1 :: post).head? := Chain.next_of chain
      have nodup := (List.nodup_append.mp chain.nodup).2.1
      rw [List.cons_append, List.nodup_cons] at nodup
      obtain ⟨out, nodup⟩ := nodup
      have other : w1 ≠ v := by
        rintro rfl
        exact out (by simp)
      have out' : v ∉ mid := fun listed => out (List.mem_append_left _ listed)
      have front : w1 ∉ mid := fun listed =>
        (List.nodup_append.mp nodup).2.2 w1 listed w1 (List.mem_cons_self ..) rfl
      have few : mid.length < fuel := by
        rw [List.length_cons] at enough
        omega
      -- the windows still to be passed show what they showed
      have later : ∀ s₂, Passed w1 [v] s s₂ → ∀ u ∈ mid, Within s₂ u := by
        intro s₂ passed u listed x y outside
        have apart : u ≠ w1 := ne_of_mem_of_not_mem listed front
        rw [passed.others u apart (by simpa using ne_of_mem_of_not_mem listed out')]
        exact within u (List.mem_cons_of_mem _ listed) x y (by rwa [← passed.recut.rect])
      rw [List.cons_append, List.head?_cons, promoteOver, if_neg other.symm]
      rcases pass_one tidy other (within v (List.mem_cons_self ..)) with
        ⟨apart, passed⟩ | ⟨meet, s₁, affectedthisone, s₂, eq₁, eq₂, passed, quiet⟩
      · rw [if_pos apart, next]
        obtain ⟨s', affected', eq, rest, quiet'⟩ := @ih _ fuel affected _ tidy chain'
          (later s passed) few
        exact ⟨s', affected', eq, .cons other.symm out' front passed rest, quiet'⟩
      · have coalesced : ∀ f : State → Option (State × Bool × Bool),
            (if affectedthisone = true then (wmCoalesce v s₁).bind f else f s₁) = f s₂ := by
          intro f
          cases affectedthisone with
          | true =>
            rw [if_pos rfl] at eq₂ ⊢
            rw [eq₂, Option.bind_some]
          | false =>
            cases eq₂
            rfl
        obtain ⟨s', affected', eq, rest, quiet'⟩ := @ih _ fuel (affected || affectedthisone) _
          passed.tidy (by rwa [passed.recut.list]) (later s₂ passed) few
        refine ⟨s', affected', ?_, .cons other.symm out' front passed rest, fun none => ?_⟩
        · rw [if_neg meet]
          simp only [eq₁, Option.bind_eq_bind, Option.bind_some, coalesced]
          rw [passed.recut.list, next, eq]
        · obtain ⟨before, same⟩ := quiet' none
          rw [Bool.or_eq_false_iff] at before
          exact ⟨before.1, fun x y => by rw [same, quiet before.2]⟩

end

/-! ## What each window shows -/

/-- At one pixel, each window of the list shows it once if it has it and the pixel
    is free, which it is not for the windows behind. -/
def Tiles (s : State) (x y : Int) : Bool → List WinId → Prop
  | _, [] => True
  | free, w :: l =>
    s.cover w x y = (free && (s.win w).rect.has x y).toNat ∧
      Tiles s x y (free && !(s.win w).rect.has x y) l

/-- Some window of the list has the pixel. -/
def hidden (s : State) (x y : Int) (l : List WinId) : Bool :=
  l.any fun v => (s.win v).rect.has x y

section

variable {s s' : State} {x y : Int} {free : Bool} {l mid post : List WinId} {w w1 v : WinId}

theorem hidden_congr (same : ∀ v ∈ l, (s'.win v).rect = (s.win v).rect) :
    hidden s' x y l = hidden s x y l := by
  induction l with
  | nil => rfl
  | cons v l ih =>
    rw [hidden, List.any_cons, same v (List.mem_cons_self ..), hidden, List.any_cons]
    exact congrArg _ (ih fun u listed => same u (List.mem_cons_of_mem _ listed))

theorem tiles_append :
    Tiles s x y free (mid ++ post) ↔
      Tiles s x y free mid ∧ Tiles s x y (free && !hidden s x y mid) post := by
  induction mid generalizing free with
  | nil => simp [Tiles, hidden]
  | cons v mid ih =>
    simp only [List.cons_append, Tiles, ih, hidden, List.any_cons, Bool.not_or, Bool.and_assoc,
      and_assoc]

theorem Tiles.congr (tiles : Tiles s x y free l)
    (same : ∀ w ∈ l, s'.cover w x y = s.cover w x y ∧ (s'.win w).rect = (s.win w).rect) :
    Tiles s' x y free l := by
  induction l generalizing free with
  | nil => trivial
  | cons w l ih =>
    obtain ⟨cover, rect⟩ := same w (List.mem_cons_self ..)
    refine ⟨by rw [cover, rect, tiles.1], ?_⟩
    rw [rect]
    exact ih tiles.2 fun v listed => same v (List.mem_cons_of_mem _ listed)

/-- Nothing is shown where the pixel is taken. -/
theorem tiles_taken : Tiles s x y false l ↔ ∀ w ∈ l, s.cover w x y = 0 := by
  induction l with
  | nil => simp [Tiles]
  | cons w l ih => simp [Tiles, ih]

/-- A pixel some window of the list has is shown once by all of them together. -/
theorem Tiles.sum (tiles : Tiles s x y free l) :
    (l.map fun v => s.cover v x y).sum + (free && !hidden s x y l).toNat = free.toNat := by
  induction l generalizing free with
  | nil => simp [hidden]
  | cons w l ih =>
    have rest := ih tiles.2
    have here := tiles.1
    have cut : (free && !hidden s x y (w :: l)) =
        (free && !(s.win w).rect.has x y && !hidden s x y l) := by
      simp only [hidden, List.any_cons, Bool.not_or, Bool.and_assoc]
    rw [List.map_cons, List.sum_cons, cut]
    cases free <;> cases has : (s.win w).rect.has x y <;> simp [has] at here rest ⊢ <;> omega

theorem Tiles.within (tiles : Tiles s x y free l) (listed : w ∈ l)
    (outside : (s.win w).rect.has x y = false) : s.cover w x y = 0 := by
  induction l generalizing free with
  | nil => cases listed
  | cons v l ih =>
    rcases List.mem_cons.mp listed with rfl | listed
    · rw [tiles.1, outside, Bool.and_false]
      rfl
    · exact ih tiles.2 listed

/-- The promoted window is in front of the ones it passed. -/
theorem tiles_promote (nodup : (mid ++ w1 :: post).Nodup) (passed : Passed w1 mid s s')
    (tiles : Tiles s x y free (mid ++ w1 :: post)) : Tiles s' x y free (w1 :: (mid ++ post)) := by
  obtain ⟨front, here, behind⟩ := tiles_append.mp tiles
  have rect := fun v => passed.recut.rect v
  cases inside : (s.win w1).rect.has x y with
  | false =>
    have same := fun v => passed.outside x y inside v
    rw [inside, Bool.and_false] at here
    rw [inside, Bool.not_false, Bool.and_true] at behind
    have eq : hidden s' x y mid = hidden s x y mid := hidden_congr fun v _ => rect v
    refine ⟨?_, ?_⟩
    · rw [same, here, rect, inside, Bool.and_false]
    · rw [rect, inside, Bool.not_false, Bool.and_true]
      refine tiles_append.mpr ⟨front.congr fun v _ => ⟨same v, rect v⟩, ?_⟩
      rw [eq]
      exact behind.congr fun v _ => ⟨same v, rect v⟩
  | true =>
    have gained := passed.gained x y inside
    have sum := front.sum
    rw [inside] at here behind
    simp only [Bool.and_true] at here
    refine ⟨?_, ?_⟩
    · rw [gained, rect, inside, Bool.and_true]
      omega
    · rw [Bool.not_true, Bool.and_false, tiles_taken] at behind
      rw [rect, inside, Bool.not_true, Bool.and_false, tiles_taken]
      intro v listed
      have perm : (mid ++ w1 :: post).Perm (w1 :: (mid ++ post)) := List.perm_middle
      obtain ⟨out, nodup⟩ := List.nodup_cons.mp (perm.nodup_iff.mp nodup)
      rcases List.mem_append.mp listed with there | there
      · exact passed.lost x y inside v there
      · rw [passed.others v (ne_of_mem_of_not_mem listed out) fun front =>
          (List.nodup_append.mp nodup).2.2 v front v there rfl]
        exact behind v there

end

/-! ## The stack -/

structure Stacked (s : State) (order : List WinId) : Prop where
  chain : Chain s.list order
  tidy : Tidy s
  tiles : ∀ x y, Tiles s x y (screen.has x y) order
  wins : s.wins.Sound
  taken : ∀ w ∈ order, s.wins.Taken w
  /-- No other window holds pieces. -/
  bare : ∀ w, w ∉ order → (s.win w).ys = []
  background : s.backgroundw ∈ order
  backdrop : (s.win s.backgroundw).rect = screen
  dummy : ∀ w ∈ order, (s.win w).dummy = true ↔ w = s.backgroundw

/-- What a change of the stack leaves alone: a window whose pieces changed is
    marked, and so is one that shows a pixel it did not show. -/
structure Kept (s s' : State) : Prop where
  font : s'.font = s.font
  wins : s'.wins = s.wins
  backgroundw : s'.backgroundw = s.backgroundw
  kept : ∀ w, s'.win w =
    { s.win w with
      xs := (s'.win w).xs, ys := (s'.win w).ys, newpieces := (s'.win w).newpieces,
      redisplay := (s'.win w).redisplay }
  told : ∀ w, (s'.win w).newpieces = false → (s.win w).newpieces = false ∧
    (s'.win w).ys = (s.win w).ys ∧ ∀ p ∈ (s.win w).ys, s'.piece p = s.piece p
  marked : ∀ w, (s.win w).redisplay = true → (s'.win w).redisplay = true
  gained : ∀ w, (s'.win w).redisplay = false → ∀ x y, s'.cover w x y ≤ s.cover w x y

namespace Kept

variable {s s' s'' : State}

theorem refl (s : State) : Kept s s :=
  ⟨rfl, rfl, rfl, fun _ => rfl, fun _ quiet => ⟨quiet, rfl, fun _ _ => rfl⟩, fun _ => id,
    fun _ _ _ _ => Nat.le_refl _⟩

theorem trans (left : Kept s s') (right : Kept s' s'') : Kept s s'' := by
  constructor
  case font => exact right.font.trans left.font
  case wins => exact right.wins.trans left.wins
  case backgroundw => exact right.backgroundw.trans left.backgroundw
  case kept =>
    intro w
    rw [right.kept w, left.kept w]
  case told =>
    intro w quiet
    obtain ⟨quiet', ys', same'⟩ := right.told w quiet
    obtain ⟨quiet, ys, same⟩ := left.told w quiet'
    refine ⟨quiet, ys'.trans ys, fun p listed => ?_⟩
    rw [same' p (ys ▸ listed), same p listed]
  case marked => exact fun w marked => right.marked w (left.marked w marked)
  case gained =>
    intro w quiet x y
    have quiet' : (s'.win w).redisplay = false := by
      cases marked : (s'.win w).redisplay with
      | false => rfl
      | true => rw [right.marked w marked] at quiet; cases quiet
    exact Nat.le_trans (right.gained w quiet x y) (left.gained w quiet' x y)

theorem rect (kept : Kept s s') (w : WinId) : (s'.win w).rect = (s.win w).rect := by
  rw [kept.kept w]

theorem dummy (kept : Kept s s') (w : WinId) : (s'.win w).dummy = (s.win w).dummy := by
  rw [kept.kept w]

end Kept

namespace Stacked

variable {s s' : State} {order order' pre mid post : List WinId} {w w1 w2 v : WinId}

theorem length_le (stacked : Stacked s order) : order.length ≤ s.windows := by
  have sub : order ⊆ List.range s.windows := fun w listed =>
    List.mem_range.mpr (stacked.taken w listed).1
  have le := (List.subperm_of_subset stacked.chain.nodup sub).length_le
  rwa [List.length_range] at le

theorem within (stacked : Stacked s order) (v : WinId) : Within s v := by
  intro x y outside
  by_cases listed : v ∈ order
  · exact (stacked.tiles x y).within listed outside
  · simp [State.cover, State.total, stacked.bare v listed]

/-- The same windows in another order. -/
theorem reorder (stacked : Stacked s order) (kept : Kept s s') (perm : order'.Perm order)
    (chain : Chain s'.list order') (tidy : Tidy s')
    (tiles : ∀ x y, Tiles s' x y (screen.has x y) order')
    (bare : ∀ w, w ∉ order → (s'.win w).ys = []) : Stacked s' order' := by
  constructor
  case chain => exact chain
  case tidy => exact tidy
  case tiles => exact tiles
  case wins => exact kept.wins ▸ stacked.wins
  case taken => exact fun w listed => kept.wins ▸ stacked.taken w (perm.mem_iff.mp listed)
  case bare => exact fun w out => bare w fun listed => out (perm.mem_iff.mpr listed)
  case background => exact kept.backgroundw ▸ perm.mem_iff.mpr stacked.background
  case backdrop => rw [kept.backgroundw, kept.rect, stacked.backdrop]
  case dummy =>
    intro w listed
    rw [kept.dummy, kept.backgroundw]
    exact stacked.dummy w (perm.mem_iff.mp listed)

end Stacked

section

variable {s s' : State} {order pre mid post : List WinId} {w w1 w2 v : WinId}

theorem relink_chain (chain : Chain s.list (pre ++ (w2 :: mid ++ w1 :: post))) :
    Chain (relink w1 w2 s).list (pre ++ w1 :: (w2 :: mid ++ post)) := by
  have split : pre ++ (w2 :: mid ++ w1 :: post) = (pre ++ w2 :: mid) ++ w1 :: post := by simp
  rw [split] at chain
  have out := chain.not_mem
  have removed := chain.remove
  have join : (pre ++ w2 :: mid) ++ post = pre ++ w2 :: (mid ++ post) := by simp
  rw [join] at removed out
  have inserted := removed.insert out
  rw [← removed.prev_of] at inserted
  exact inserted

theorem mark_cover (x y : Int) :
    (s.modify w fun win => { win with redisplay := true }).cover v x y = s.cover v x y := by
  refine total_congr ?_ fun _ _ => rfl
  by_cases same : v = w
  · rw [same, modify_win_self]
  · rw [modify_win_other same]

/-- A window that shows no pixel has no piece. -/
theorem bare_of_cover (tidy : Tidy s) (none : ∀ x y, s.cover w x y = 0) : (s.win w).ys = [] := by
  rw [List.eq_nil_iff_forall_not_mem]
  intro p listed
  have corner := (tidy.proper w p listed).has_corner
  rw [cover_eq_zero_iff.mp (none _ _) p listed] at corner
  cases corner

theorem mark_tidy (tidy : Tidy s) :
    Tidy (s.modify w fun win => { win with redisplay := true }) :=
  tidy.of_modify (tidy.perm w) (tidy.nodup w) (tidy.xSorted w) (tidy.sorted w) fun _ listed =>
    .inl listed

/-- Only the links of windows were written after the pieces were cut. -/
theorem kept_of_recut (recut : Recut s s') (list : Dlist WinId)
    (fewer : ∀ v x y, s'.cover v x y ≤ s.cover v x y) : Kept s { s' with list := list } := by
  constructor
  case font => exact recut.font
  case wins => exact recut.wins
  case backgroundw => exact recut.backgroundw
  case kept =>
    intro w
    have same := recut.kept w
    rw [same]
  case told => exact recut.told
  case marked =>
    intro w marked
    have same := recut.kept w
    rw [same]
    exact marked
  case gained => exact fun w _ => fewer w

/-- The window that gained is marked. -/
theorem kept_of_mark {s₁ s₂ : State} {list : Dlist WinId} (recut : Recut s s₁)
    (recut' : Recut { s₁ with list := list } s₂)
    (fewer : ∀ v, v ≠ w → ∀ x y, s₂.cover v x y ≤ s.cover v x y) :
    Kept s (s₂.modify w fun win => { win with redisplay := true }) := by
  have both : ∀ v, s₂.win v =
      { s.win v with
        xs := (s₂.win v).xs, ys := (s₂.win v).ys, newpieces := (s₂.win v).newpieces } := by
    intro v
    have first := recut.kept v
    have second := recut'.kept v
    rw [second, first]
  have told : ∀ v, (s₂.win v).newpieces = false → (s.win v).newpieces = false ∧
      (s₂.win v).ys = (s.win v).ys ∧ ∀ p ∈ (s.win v).ys, s₂.piece p = s.piece p := by
    intro v quiet
    obtain ⟨quiet', ys', same'⟩ := recut'.told v quiet
    obtain ⟨quiet, ys, same⟩ := recut.told v quiet'
    exact ⟨quiet, ys'.trans ys, fun p listed => (same' p (ys ▸ listed)).trans (same p listed)⟩
  constructor
  case font => exact recut'.font.trans recut.font
  case wins => exact recut'.wins.trans recut.wins
  case backgroundw => exact recut'.backgroundw.trans recut.backgroundw
  case kept =>
    intro v
    by_cases here : v = w
    · rw [here, modify_win_self, both w]
    · rw [modify_win_other here, both v]
  case told =>
    intro v quiet
    by_cases here : v = w
    · rw [here, modify_win_self] at quiet ⊢
      exact told w quiet
    · rw [modify_win_other here] at quiet ⊢
      exact told v quiet
  case marked =>
    intro v marked
    by_cases here : v = w
    · rw [here, modify_win_self]
    · rw [modify_win_other here, both v]
      exact marked
  case gained =>
    intro v quiet x y
    by_cases here : v = w
    · rw [here, modify_win_self] at quiet
      cases quiet
    · rw [mark_cover]
      exact fewer v here x y

/-- A window is moved forward in the stack, to before a window in front of it. -/
theorem wmPromote_spec (stacked : Stacked s (pre ++ (w2 :: mid ++ w1 :: post))) :
    ∃ s', wmPromote (some w1) (some w2) s = some s' ∧
      Stacked s' (pre ++ w1 :: (w2 :: mid ++ post)) ∧ Kept s s' := by
  have chain := stacked.chain
  have nodup := (List.nodup_append.mp chain.nodup).2.1
  have apart : w1 ≠ w2 := by
    rintro rfl
    simp at nodup
  have not_first : s.list.first ≠ some w1 := by
    intro first
    rw [chain.first] at first
    cases pre with
    | nil =>
      cases first
      exact apart rfl
    | cons a pre =>
      cases first
      have out := (List.nodup_cons.mp chain.nodup).1
      exact out (by simp)
  have few : (w2 :: mid).length < s.windows + 1 := by
    have le := stacked.length_le
    simp only [List.length_append, List.length_cons] at le ⊢
    omega
  obtain ⟨s₁, affected, eq₁, passed, quiet⟩ := @promoteOver_spec s w1 (w2 :: mid) post _ false pre
    stacked.tidy chain (fun v _ => stacked.within v) few
  rw [List.cons_append, List.head?_cons] at eq₁
  have tidy₁ : Tidy (relink w1 w2 s₁) :=
    ⟨passed.tidy.perm, passed.tidy.nodup, passed.tidy.xSorted, passed.tidy.sorted,
      passed.tidy.proper, passed.tidy.alone, passed.tidy.sound, passed.tidy.taken⟩
  have chain₁ : Chain (relink w1 w2 s₁).list (pre ++ w1 :: (w2 :: mid ++ post)) :=
    relink_chain (passed.recut.list ▸ chain)
  have out : ∀ v ∈ pre, v ≠ w1 ∧ v ∉ w2 :: mid := by
    intro v listed
    have distinct := (List.nodup_append.mp chain.nodup).2.2 v listed
    exact ⟨distinct w1 (by simp), fun there => distinct v (List.mem_append_left _ there) rfl⟩
  have tiles₁ : ∀ x y, Tiles s₁ x y (screen.has x y) (pre ++ w1 :: (w2 :: mid ++ post)) := by
    intro x y
    obtain ⟨front, behind⟩ := tiles_append.mp (stacked.tiles x y)
    have rect := passed.recut.rect
    have eq : hidden s₁ x y pre = hidden s x y pre := hidden_congr fun v _ => rect v
    refine tiles_append.mpr ⟨front.congr fun v listed => ⟨?_, rect v⟩, ?_⟩
    · exact passed.others v (out v listed).1 (out v listed).2 x y
    · rw [eq]
      exact tiles_promote nodup passed behind
  have perm : (pre ++ w1 :: (w2 :: mid ++ post)).Perm (pre ++ (w2 :: mid ++ w1 :: post)) :=
    (List.perm_middle.symm).append_left pre
  have bare₁ : ∀ v, v ∉ pre ++ (w2 :: mid ++ w1 :: post) → ∀ x y, s₁.cover v x y = 0 := by
    intro v away x y
    rw [passed.others v (fun same => away (by simp [same]))
      (fun there => away (by simp only [List.mem_append]; exact .inr (.inl there)))]
    simp [State.cover, State.total, stacked.bare v away]
  have fewer : ∀ v, v ≠ w1 → ∀ x y, s₁.cover v x y ≤ s.cover v x y := by
    intro v other x y
    cases inside : (s.win w1).rect.has x y with
    | false => exact Nat.le_of_eq (passed.outside x y inside v)
    | true =>
      by_cases there : v ∈ w2 :: mid
      · rw [passed.lost x y inside v there]
        exact Nat.zero_le _
      · exact Nat.le_of_eq (passed.others v other there x y)
  rw [wmPromote, if_neg (not_or.mpr ⟨not_first, apart⟩)]
  cases affected with
  | false =>
    have kept : Kept s (relink w1 w2 s₁) := by
      refine kept_of_recut passed.recut _ fun v x y => ?_
      by_cases here : v = w1
      · rw [here]
        exact Nat.le_of_eq ((quiet rfl).2 x y)
      · exact fewer v here x y
    refine ⟨relink w1 w2 s₁, ?_, ?_, kept⟩
    · simp only [eq₁, Option.bind_eq_bind, Option.bind_some, if_true, Bool.false_eq_true, if_false]
    · refine stacked.reorder kept perm chain₁ tidy₁ (fun x y => ?_) fun v away => ?_
      · exact (tiles₁ x y).congr fun _ _ => ⟨rfl, rfl⟩
      · exact bare_of_cover tidy₁ (bare₁ v away)
  | true =>
    obtain ⟨s₂, eq₂, retiled⟩ := wmCoalesce_spec (w := w1) tidy₁
    have cover₂ : ∀ v x y, s₂.cover v x y = s₁.cover v x y := retiled.cover_all
    have kept : Kept s (s₂.modify w1 fun win => { win with redisplay := true }) :=
      kept_of_mark passed.recut retiled.recut fun v other x y => by
        rw [cover₂]
        exact fewer v other x y
    refine ⟨s₂.modify w1 fun win => { win with redisplay := true }, ?_, ?_, kept⟩
    · simp only [eq₁, Option.bind_eq_bind, Option.bind_some, if_true, eq₂]
    · have tidy₂ := mark_tidy (w := w1) retiled.tidy
      refine stacked.reorder kept perm ?_ tidy₂ (fun x y => ?_) fun v away => ?_
      · exact retiled.recut.list ▸ chain₁
      · refine (tiles₁ x y).congr fun v _ => ⟨by rw [mark_cover, cover₂], ?_⟩
        rw [kept.rect, passed.recut.rect]
      · refine bare_of_cover tidy₂ fun x y => ?_
        rw [mark_cover, cover₂, bare₁ v away]

/-- The windows behind `w` are moved to before it, up to the first one where the
    loop stops. -/
theorem promoteNext_spec (stop : Window → Bool) (go_on : WinId → Bool) {fuel : Nat}
    (fixed : ∀ s s' v, Kept s s' → stop (s'.win v) = stop (s.win v))
    (stacked : Stacked s (pre ++ w :: post)) (same : ∀ v ∈ post, go_on v = !stop (s.win v))
    (enough : post.length ≤ fuel) :
    ∃ s', promoteNext stop w fuel s = some s' ∧
      Stacked s' (pre ++ (post.takeWhile go_on ++ w :: post.dropWhile go_on)) ∧ Kept s s' := by
  induction post generalizing s fuel pre with
  | nil =>
    have next : s.list.next w = none := stacked.chain.next_of
    refine ⟨s, ?_, stacked, .refl s⟩
    rw [promoteNext.eq_def]
    simp only [next]
  | cons nw post ih =>
    have next : s.list.next w = some nw := stacked.chain.next_of
    have here := same nw (List.mem_cons_self ..)
    cases stops : stop (s.win nw) with
    | true =>
      have halt : go_on nw = false := by rw [here, stops]; rfl
      refine ⟨s, ?_, ?_, .refl s⟩
      · rw [promoteNext.eq_def]
        simp only [next, stops, if_true]
      · rw [List.takeWhile_cons_of_neg (by simp [halt]), List.dropWhile_cons_of_neg (by simp [halt])]
        exact stacked
    | false =>
      have moves : go_on nw = true := by rw [here, stops]; rfl
      cases fuel with
      | zero => simp at enough
      | succ fuel =>
        obtain ⟨s₁, eq₁, stacked₁, kept₁⟩ := @wmPromote_spec s pre [] post nw w stacked
        rw [List.append_cons] at stacked₁
        obtain ⟨s₂, eq₂, stacked₂, kept₂⟩ := ih stacked₁ (fun v listed => by
          rw [fixed s s₁ v kept₁]
          exact same v (List.mem_cons_of_mem _ listed)) (by simpa using enough)
        refine ⟨s₂, ?_, ?_, kept₁.trans kept₂⟩
        · rw [promoteNext.eq_def]
          simp only [next, stops, Bool.false_eq_true, if_false, eq₁, Option.bind_eq_bind,
            Option.bind_some, eq₂]
        · rw [List.takeWhile_cons_of_pos moves, List.dropWhile_cons_of_pos moves]
          simpa using stacked₂

end

end Irix.Mex
