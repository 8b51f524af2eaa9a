import Irix.Mex.Stack

/-! # Visibility

The pieces of all windows cut the screen up, and each window has the part of its
rectangle no window in front of it has, after any sequence of operations on the
stack.
-/

namespace Irix.Mex

open Function
open Lib (Rect Pool)
open Lib.Linked

/-! ## The exported functions on a stack -/

section

variable {s s' : State} {order pre post : List WinId} {w v : WinId}

/-- Windows behind the background window show nothing. -/
theorem Stacked.hidden_behind (stacked : Stacked s (pre ++ post)) (back : s.backgroundw ∈ pre)
    (x y : Int) : (screen.has x y && !hidden s x y pre) = false := by
  cases inside : screen.has x y with
  | false => rfl
  | true =>
    have covered : hidden s x y pre = true := by
      rw [hidden, List.any_eq_true]
      exact ⟨s.backgroundw, back, by rw [stacked.backdrop, inside]⟩
    rw [covered]
    rfl

theorem Stacked.cover_behind (stacked : Stacked s (pre ++ post)) (back : s.backgroundw ∈ pre)
    (listed : v ∈ post) (x y : Int) : s.cover v x y = 0 := by
  have behind := (tiles_append.mp (stacked.tiles x y)).2
  rw [stacked.hidden_behind back] at behind
  exact tiles_taken.mp behind v listed

theorem Stacked.not_background (stacked : Stacked s (pre ++ w :: post))
    (back : s.backgroundw ∈ pre) : w ≠ s.backgroundw := by
  intro same
  have distinct := (List.nodup_append.mp stacked.chain.nodup).2.2 s.backgroundw back w (by simp)
  exact distinct same.symm

theorem wmPop_spec (stacked : Stacked s (pre ++ w :: post)) :
    ∃ s', wmPop (some w) s = some s' ∧ Stacked s' (w :: (pre ++ post)) ∧ Kept s s' := by
  have first := stacked.chain.first
  cases pre with
  | nil =>
    refine ⟨s, ?_, stacked, .refl s⟩
    rw [wmPop, first]
    simp [wmPromote]
  | cons w2 mid =>
    obtain ⟨s', eq, stacked', kept⟩ := @wmPromote_spec s [] mid post w w2 stacked
    refine ⟨s', ?_, stacked', kept⟩
    rw [wmPop, first]
    exact eq

/-- What the windows behind the background window are left with by `wm_push`. -/
theorem wmPush_spec (stacked : Stacked s (pre ++ w :: post)) :
    ∃ s', wmPush (some w) s = some s' ∧
      Stacked s' (pre ++ (post.takeWhile (fun v => decide (v ≠ s.backgroundw)) ++
        w :: post.dropWhile fun v => decide (v ≠ s.backgroundw))) ∧ Kept s s' := by
  have le := stacked.length_le
  simp only [List.length_append, List.length_cons] at le
  refine promoteNext_spec Window.dummy _ (fun _ _ v kept => kept.dummy v) stacked ?_ (by omega)
  intro v listed
  have dummy := stacked.dummy v (by simp [listed])
  cases flag : (s.win v).dummy with
  | true => simp [dummy.mp flag]
  | false =>
    have other : v ≠ s.backgroundw := fun same => by
      rw [dummy.mpr same] at flag
      cases flag
    simp [other]

theorem wmDerez_spec (stacked : Stacked s (pre ++ w :: post)) :
    ∃ s', wmDerez (some w) s = some s' ∧ Stacked s' (pre ++ (post ++ [w])) ∧ Kept s s' := by
  have le := stacked.length_le
  simp only [List.length_append, List.length_cons] at le
  obtain ⟨s', eq, stacked', kept⟩ := promoteNext_spec (fun _ => false) (fun _ => true)
    (fun _ _ _ _ => rfl) stacked (fun _ _ => rfl) (Nat.le_trans (by omega) le)
  have all : ∀ l : List WinId, l.takeWhile (fun _ => true) = l ∧ l.dropWhile (fun _ => true) = [] := by
    intro l
    induction l with
    | nil => exact ⟨rfl, rfl⟩
    | cons v l ih => simp [ih]
  rw [(all post).1, (all post).2] at stacked'
  exact ⟨s', eq, stacked', kept⟩

theorem findDummy_none {fuel : Nat} {next : Option WinId} (chain : Chain s.list (pre ++ post))
    (first : next = post.head?) (plain : ∀ v ∈ post, (s.win v).dummy = false)
    (enough : post.length ≤ fuel) : findDummy s fuel next = some none := by
  induction post generalizing pre fuel next with
  | nil =>
    subst first
    cases fuel <;> rfl
  | cons v post ih =>
    subst first
    cases fuel with
    | zero => simp at enough
    | succ fuel =>
      have here := plain v (List.mem_cons_self ..)
      have chain' : Chain s.list ((pre ++ [v]) ++ post) := by simpa using chain
      simp only [List.head?_cons, findDummy, here, Bool.false_eq_true, if_false]
      exact ih chain' chain.next_of (fun u listed => plain u (List.mem_cons_of_mem _ listed))
        (by simpa using enough)

theorem Stacked.no_dummy (stacked : Stacked s (pre ++ w :: post)) (back : s.backgroundw ∈ pre) :
    findDummy s s.windows (s.list.next w) = some none := by
  have le := stacked.length_le
  simp only [List.length_append, List.length_cons] at le
  have chain : Chain s.list ((pre ++ [w]) ++ post) := by simpa using stacked.chain
  refine findDummy_none chain stacked.chain.next_of (fun v listed => ?_) (by omega)
  have dummy := stacked.dummy v (by simp [listed])
  cases flag : (s.win v).dummy with
  | false => rfl
  | true =>
    have distinct := (List.nodup_append.mp stacked.chain.nodup).2.2 s.backgroundw back v
      (by simp [listed])
    exact absurd (dummy.mp flag).symm distinct

/-- The record of a window behind the background window may change, but for its
    pieces. -/
theorem Stacked.rewrite (stacked : Stacked s (pre ++ w :: post)) (back : s.backgroundw ∈ pre)
    {f : Window → Window} (xs : (f (s.win w)).xs = (s.win w).xs)
    (ys : (f (s.win w)).ys = (s.win w).ys) (dummy : (f (s.win w)).dummy = (s.win w).dummy) :
    Stacked (s.modify w f) (pre ++ w :: post) := by
  have other := stacked.not_background back
  have lists : ∀ v, ((s.modify w f).win v).ys = (s.win v).ys ∧
      ((s.modify w f).win v).dummy = (s.win v).dummy := by
    intro v
    by_cases same : v = w
    · rw [same, modify_win_self]
      exact ⟨ys, dummy⟩
    · rw [modify_win_other same]
      exact ⟨rfl, rfl⟩
  have cover : ∀ v x y, (s.modify w f).cover v x y = s.cover v x y := fun v x y =>
    total_congr (.of_eq (lists v).1) fun _ _ => rfl
  constructor
  case chain => exact stacked.chain
  case wins => exact stacked.wins
  case taken => exact stacked.taken
  case background => exact stacked.background
  case bare => exact fun v away => (lists v).1.trans (stacked.bare v away)
  case dummy => exact fun v listed => (lists v).2 ▸ stacked.dummy v listed
  case backdrop =>
    have same : (s.modify w f).win s.backgroundw = s.win s.backgroundw :=
      modify_win_other other.symm
    exact (congrArg Window.rect same).trans stacked.backdrop
  case tidy =>
    refine stacked.tidy.of_modify ?_ ?_ ?_ ?_ fun p listed => .inl (ys ▸ listed)
    · rw [xs, ys]
      exact stacked.tidy.perm w
    · rw [ys]
      exact stacked.tidy.nodup w
    · rw [xs]
      exact stacked.tidy.xSorted w
    · rw [ys]
      exact stacked.tidy.sorted w
  case tiles =>
    intro x y
    obtain ⟨front, -⟩ := tiles_append.mp (stacked.tiles x y)
    have apart : ∀ v ∈ pre, v ≠ w := fun v listed =>
      (List.nodup_append.mp stacked.chain.nodup).2.2 v listed w (by simp)
    have same : ∀ v ∈ pre, ((s.modify w f).win v).rect = (s.win v).rect := fun v listed => by
      rw [modify_win_other (apart v listed)]
    have eq : hidden (s.modify w f) x y pre = hidden s x y pre := hidden_congr same
    refine tiles_append.mpr ⟨front.congr fun v listed => ⟨cover v x y, same v listed⟩, ?_⟩
    rw [eq, stacked.hidden_behind back, tiles_taken]
    intro v listed
    rw [cover]
    exact stacked.cover_behind back listed x y

/-- What the windows show does not depend on their ports and flags. -/
theorem Stacked.modify_ports (stacked : Stacked s order) {f : Window → Window}
    (xs : ∀ win, (f win).xs = win.xs) (ys : ∀ win, (f win).ys = win.ys)
    (dummy : ∀ win, (f win).dummy = win.dummy) (rect : ∀ win, (f win).rect = win.rect) :
    Stacked (s.modify w f) order := by
  have same : ∀ v, ((s.modify w f).win v).ys = (s.win v).ys ∧
      ((s.modify w f).win v).dummy = (s.win v).dummy ∧
      ((s.modify w f).win v).rect = (s.win v).rect := by
    intro v
    by_cases here : v = w
    · rw [here, modify_win_self]
      exact ⟨ys _, dummy _, rect _⟩
    · rw [modify_win_other here]
      exact ⟨rfl, rfl, rfl⟩
  constructor
  case chain => exact stacked.chain
  case wins => exact stacked.wins
  case taken => exact stacked.taken
  case background => exact stacked.background
  case bare => exact fun v away => (same v).1.trans (stacked.bare v away)
  case backdrop => exact (same _).2.2.trans stacked.backdrop
  case dummy => exact fun v listed => (same v).2.1 ▸ stacked.dummy v listed
  case tidy =>
    refine stacked.tidy.of_modify ?_ ?_ ?_ ?_ fun p listed => .inl (ys _ ▸ listed)
    · rw [xs, ys]
      exact stacked.tidy.perm w
    · rw [ys]
      exact stacked.tidy.nodup w
    · rw [xs]
      exact stacked.tidy.xSorted w
    · rw [ys]
      exact stacked.tidy.sorted w
  case tiles =>
    intro x y
    refine (stacked.tiles x y).congr fun v _ => ⟨?_, (same v).2.2⟩
    exact total_congr (.of_eq (same v).1) fun _ _ => rfl

theorem wmResize_spec (stacked : Stacked s (pre ++ w :: post)) (back : s.backgroundw ∈ pre)
    (r : Rect) :
    wmResize (some w) r s = some (s.modify w (resized s.font r)) ∧
      Stacked (s.modify w (resized s.font r)) (pre ++ w :: post) := by
  refine ⟨?_, stacked.rewrite back rfl rfl rfl⟩
  rw [wmResize, stacked.no_dummy back]
  rfl

theorem wmMove_spec (stacked : Stacked s (pre ++ w :: post)) (back : s.backgroundw ∈ pre)
    (xmin ymin : Int) :
    wmMove (some w) xmin ymin s = some (s.modify w (moved xmin ymin)) ∧
      Stacked (s.modify w (moved xmin ymin)) (pre ++ w :: post) := by
  refine ⟨?_, stacked.rewrite back rfl rfl rfl⟩
  rw [wmMove, stacked.no_dummy back]
  rfl

/-- A window behind the background window has no piece to leak. -/
theorem wmFreewin_spec (stacked : Stacked s (pre ++ w :: post)) (back : s.backgroundw ∈ pre) :
    Stacked (wmFreewin (some w) s) (pre ++ post) := by
  have other := stacked.not_background back
  have out := stacked.chain.not_mem
  have empty : (s.win w).ys = [] := bare_of_cover stacked.tidy fun x y =>
    stacked.cover_behind back (List.mem_cons_self ..) x y
  have listed : ∀ v ∈ pre ++ post, v ∈ pre ++ w :: post := by
    intro v there
    rw [List.mem_append, List.mem_cons]
    rcases List.mem_append.mp there with front | behind
    · exact .inl front
    · exact .inr (.inr behind)
  have same : ∀ v, v ≠ w → (wmFreewin (some w) s).win v = s.win v := fun v apart =>
    update_of_ne apart ..
  have freed : (wmFreewin (some w) s).win w = {} := update_self ..
  have lists : ∀ v, ((wmFreewin (some w) s).win v).ys = (s.win v).ys := by
    intro v
    by_cases here : v = w
    · rw [here, freed, empty]
    · rw [same v here]
  have cover : ∀ v x y, (wmFreewin (some w) s).cover v x y = s.cover v x y := fun v x y =>
    total_congr (.of_eq (lists v)) fun _ _ => rfl
  constructor
  case chain => exact stacked.chain.remove.clear out
  case wins => exact Pool.release_sound stacked.wins (stacked.taken w (by simp))
  case taken =>
    intro v there
    refine Pool.release_taken_iff.mpr ⟨stacked.taken v (listed v there), ?_⟩
    exact ne_of_mem_of_not_mem there out
  case background => exact List.mem_append_left _ back
  case backdrop => exact (congrArg Window.rect (same _ other.symm)).trans stacked.backdrop
  case bare =>
    intro v away
    rw [lists]
    by_cases here : v = w
    · rw [here, empty]
    · apply stacked.bare v
      intro there
      apply away
      rw [List.mem_append, List.mem_cons] at there
      rw [List.mem_append]
      grind -ring -linarith
  case dummy =>
    intro v there
    rw [same v (ne_of_mem_of_not_mem there out)]
    exact stacked.dummy v (listed v there)
  case tidy =>
    have tidy := stacked.tidy.of_modify (w := w) (f := fun _ => {}) (.refl _) .nil .nil .nil
      fun p there => absurd there List.not_mem_nil
    exact ⟨tidy.perm, tidy.nodup, tidy.xSorted, tidy.sorted, tidy.proper, tidy.alone, tidy.sound,
      tidy.taken⟩
  case tiles =>
    intro x y
    obtain ⟨front, -⟩ := tiles_append.mp (stacked.tiles x y)
    have rect : ∀ v ∈ pre, ((wmFreewin (some w) s).win v).rect = (s.win v).rect := fun v there => by
      rw [same v (ne_of_mem_of_not_mem (List.mem_append_left _ there) out)]
    refine tiles_append.mpr ⟨front.congr fun v there => ⟨cover v x y, rect v there⟩, ?_⟩
    rw [hidden_congr rect, stacked.hidden_behind back, tiles_taken]
    intro v there
    rw [cover]
    exact stacked.cover_behind back (List.mem_cons_of_mem _ there) x y

theorem wmNewwin_spec (stacked : Stacked s order) :
    (wmNewwin s).1 ∉ order ∧ Stacked (wmNewwin s).2 (order ++ [(wmNewwin s).1]) ∧
      ((wmNewwin s).2.win (wmNewwin s).1).fullscreen = false ∧
      (∀ v ∈ order, (wmNewwin s).2.win v = s.win v) ∧
      (wmNewwin s).2.backgroundw = s.backgroundw ∧ (wmNewwin s).2.piece = s.piece := by
  have fresh := Pool.alloc_not_taken s.wins
  have out : (wmNewwin s).1 ∉ order := fun listed => fresh (stacked.taken _ listed)
  have empty : (s.win (wmNewwin s).1).ys = [] := stacked.bare _ out
  have freed : ((wmNewwin s).2.win (wmNewwin s).1).ys = [] ∧
      ((wmNewwin s).2.win (wmNewwin s).1).dummy = false ∧
      ((wmNewwin s).2.win (wmNewwin s).1).fullscreen = false := by
    simp [wmNewwin]
  have same : ∀ v, v ≠ (wmNewwin s).1 → (wmNewwin s).2.win v = s.win v := fun v apart =>
    update_of_ne apart ..
  have apart : ∀ v ∈ order, v ≠ (wmNewwin s).1 := fun v listed => ne_of_mem_of_not_mem listed out
  have lists : ∀ v, ((wmNewwin s).2.win v).ys = (s.win v).ys := by
    intro v
    by_cases here : v = (wmNewwin s).1
    · rw [here, freed.1, empty]
    · rw [same v here]
  have cover : ∀ v x y, (wmNewwin s).2.cover v x y = s.cover v x y := fun v x y =>
    total_congr (.of_eq (lists v)) fun _ _ => rfl
  refine ⟨out, ?_, freed.2.2, fun v listed => same v (apart v listed), rfl, rfl⟩
  constructor
  case chain =>
    have chain : Chain s.list (order ++ []) := by
      rw [List.append_nil]
      exact stacked.chain
    have inserted := chain.insert (x := (wmNewwin s).1) (by rwa [List.append_nil])
    rw [← stacked.chain.last] at inserted
    exact inserted
  case wins => exact Pool.alloc_sound stacked.wins
  case taken =>
    intro v listed
    refine (Pool.alloc_taken_iff stacked.wins).mpr ?_
    rcases List.mem_append.mp listed with old | new
    · exact .inr (stacked.taken v old)
    · exact .inl (List.mem_singleton.mp new)
  case background => exact List.mem_append_left _ stacked.background
  case backdrop =>
    exact (congrArg Window.rect (same _ (apart _ stacked.background))).trans stacked.backdrop
  case bare =>
    intro v away
    rw [lists]
    exact stacked.bare v fun listed => away (List.mem_append_left _ listed)
  case dummy =>
    intro v listed
    rcases List.mem_append.mp listed with old | new
    · rw [same v (apart v old)]
      exact stacked.dummy v old
    · rw [List.mem_singleton.mp new]
      have other := (apart _ stacked.background).symm
      refine ⟨fun flag => ?_, fun here => absurd here other⟩
      rw [freed.2.1] at flag
      cases flag
  case tidy =>
    have tidy := stacked.tidy.of_modify (w := (wmNewwin s).1)
      (f := fun _ => (wmNewwin s).2.win (wmNewwin s).1) (by simp [wmNewwin]) (by simp [wmNewwin])
      (by simp [wmNewwin]) (by simp [wmNewwin]) (by simp [wmNewwin])
    have record : (s.modify (wmNewwin s).1 fun _ => (wmNewwin s).2.win (wmNewwin s).1).win =
        (wmNewwin s).2.win := by
      simp [State.modify, wmNewwin]
    exact ⟨record ▸ tidy.perm, record ▸ tidy.nodup, record ▸ tidy.xSorted,
      record ▸ tidy.sorted, record ▸ tidy.proper, record ▸ tidy.alone, tidy.sound,
      record ▸ tidy.taken⟩
  case tiles =>
    intro x y
    have rect : ∀ v ∈ order, ((wmNewwin s).2.win v).rect = (s.win v).rect := fun v listed => by
      rw [same v (apart v listed)]
    have stacked' : Stacked s (order ++ []) := by rwa [List.append_nil]
    refine tiles_append.mpr ⟨(stacked.tiles x y).congr fun v listed =>
      ⟨cover v x y, rect v listed⟩, ?_⟩
    rw [hidden_congr rect, stacked'.hidden_behind stacked.background, tiles_taken]
    intro v new
    rw [List.mem_singleton.mp new]
    simp [State.cover, State.total, freed.1]

theorem wmInit_stacked (font : Font) : Stacked (wmInit font) [(wmInit font).backgroundw] := by
  have here : (wmInit font).win (wmInit font).backgroundw =
      { dummy := true, rect := screen, xs := [0], ys := [0], txport := -1, inchan := -1,
        gfnum := -1 } := by
    simp [wmInit, Pool.alloc]
  have away : ∀ v, v ≠ (wmInit font).backgroundw → (wmInit font).win v = {} := by
    intro v other
    have other' : v ≠ 0 := other
    simp [wmInit, Pool.alloc, other']
  have lists : ∀ v, (((wmInit font).win v).xs = [0] ∧ ((wmInit font).win v).ys = [0] ∧
      v = (wmInit font).backgroundw) ∨
      ((wmInit font).win v).xs = [] ∧ ((wmInit font).win v).ys = [] := by
    intro v
    by_cases same : v = (wmInit font).backgroundw
    · rw [same, here]
      exact .inl ⟨rfl, rfl, rfl⟩
    · rw [away v same]
      exact .inr ⟨rfl, rfl⟩
  constructor
  case chain => exact ⟨by simp, rfl, rfl, rfl, rfl, trivial⟩
  case wins => exact Pool.alloc_sound Pool.sound_empty
  case taken =>
    intro v listed
    exact (Pool.alloc_taken_iff Pool.sound_empty).mpr (.inl (List.mem_singleton.mp listed))
  case background => exact List.mem_cons_self ..
  case backdrop => rw [here]
  case bare =>
    intro v other
    rw [away v fun same => other (same ▸ List.mem_cons_self ..)]
  case dummy =>
    intro v listed
    rw [List.mem_singleton.mp listed, here]
    simp
  case tiles =>
    intro x y
    refine ⟨?_, trivial⟩
    rw [here, Bool.and_self]
    simp [State.cover, State.total, Rect.count, wmInit]
  case tidy =>
    constructor
    case sound => exact Pool.alloc_sound Pool.sound_empty
    case perm =>
      intro v
      rcases lists v with ⟨xs, ys, -⟩ | ⟨xs, ys⟩ <;> rw [xs, ys]
    case nodup =>
      intro v
      rcases lists v with ⟨-, ys, -⟩ | ⟨-, ys⟩ <;> simp [ys]
    case xSorted =>
      intro v
      rcases lists v with ⟨xs, -, -⟩ | ⟨xs, -⟩ <;> simp [xs]
    case sorted =>
      intro v
      rcases lists v with ⟨-, ys, -⟩ | ⟨-, ys⟩ <;> simp [ys]
    case proper =>
      intro v p _
      exact (by decide : screen.Proper)
    case alone =>
      intro v u p left right
      rcases lists v with ⟨-, -, same⟩ | ⟨-, ys⟩ <;> rcases lists u with ⟨-, -, same'⟩ | ⟨-, ys'⟩
      · rw [same, same']
      · rw [ys'] at right
        cases right
      · rw [ys] at left
        cases left
      · rw [ys] at left
        cases left
    case taken =>
      intro v p listed
      refine (Pool.alloc_taken_iff Pool.sound_empty).mpr (.inl ?_)
      rcases lists v with ⟨-, ys, -⟩ | ⟨-, ys⟩
      · rw [ys] at listed
        exact List.mem_singleton.mp listed
      · rw [ys] at listed
        cases listed

end

/-! ## Runs -/

/-- The windows from `next` on, along their links. -/
def follow (s : State) : Nat → Option WinId → List WinId
  | 0, _ => []
  | _, none => []
  | fuel + 1, some w => w :: follow s fuel (s.list.next w)

/-- The windows from front to back. -/
def State.order (s : State) : List WinId := follow s s.windows s.list.first

/-- `w1` lies behind `w2`. -/
def State.Behind (s : State) (w1 w2 : WinId) : Prop := [w2, w1].Sublist s.order

instance (s : State) (w1 w2 : WinId) : Decidable (s.Behind w1 w2) :=
  inferInstanceAs (Decidable ([w2, w1].Sublist s.order))

/-- The window is behind the background window. -/
def State.Derezzed (s : State) (w : WinId) : Prop := s.Behind w s.backgroundw

instance (s : State) (w : WinId) : Decidable (s.Derezzed w) :=
  inferInstanceAs (Decidable (s.Behind w s.backgroundw))

inductive Op where
  | newwin
  | pop (w : WinId)
  | push (w : WinId)
  | derez (w : WinId)
  | promote (w1 w2 : WinId)
  | resize (w : WinId) (r : Rect)
  | move (w : WinId) (xmin ymin : Int)
  | freewin (w : WinId)

def perform (s : State) : Op → Option State
  | .newwin => some (wmNewwin s).2
  | .pop w => wmPop (some w) s
  | .push w => wmPush (some w) s
  | .derez w => wmDerez (some w) s
  | .promote w1 w2 => wmPromote (some w1) (some w2) s
  | .resize w r => wmResize (some w) r s
  | .move w xmin ymin => wmMove (some w) xmin ymin s
  | .freewin w => some (wmFreewin (some w) s)

/-- The operation is called with windows of the list, and as its comment says. -/
def Allowed (s : State) : Op → Prop
  | .newwin => True
  | .pop w => w ∈ s.order
  | .push w => w ∈ s.order
  | .derez w => w ∈ s.order
  | .promote w1 w2 => s.Behind w1 w2
  | .resize w _ => s.Derezzed w
  | .move w _ _ => s.Derezzed w
  | .freewin w => s.Derezzed w

inductive Reached (font : Font) : State → Prop
  | init : Reached font (wmInit font)
  | step {s s' : State} {op : Op} (reached : Reached font s) (allowed : Allowed s op)
      (eq : perform s op = some s') : Reached font s'

theorem follow_eq {s : State} {pre post : List WinId} {fuel : Nat}
    (chain : Chain s.list (pre ++ post)) (enough : post.length ≤ fuel) :
    follow s fuel post.head? = post := by
  induction post generalizing pre fuel with
  | nil => cases fuel <;> rfl
  | cons w post ih =>
    cases fuel with
    | zero => simp at enough
    | succ fuel =>
      have chain' : Chain s.list ((pre ++ [w]) ++ post) := by simpa using chain
      rw [List.head?_cons, follow, chain.next_of, ih chain' (by simpa using enough)]

theorem Stacked.order_eq {s : State} {order : List WinId} (stacked : Stacked s order) :
    s.order = order := by
  rw [State.order, stacked.chain.first]
  exact @follow_eq s [] order _ stacked.chain stacked.length_le

theorem behind_split {s : State} {w1 w2 : WinId} (behind : s.Behind w1 w2) :
    ∃ pre mid post, s.order = pre ++ (w2 :: mid ++ w1 :: post) := by
  obtain ⟨front, back, eq, listed, rest⟩ := List.cons_sublist_iff.mp behind
  obtain ⟨pre, mid, eq'⟩ := List.append_of_mem listed
  obtain ⟨mid', post, eq''⟩ := List.append_of_mem (List.singleton_sublist.mp rest)
  exact ⟨pre, mid ++ mid', post, by rw [eq, eq', eq'']; simp⟩

theorem derezzed_split {s : State} {w : WinId} (derezzed : s.Derezzed w) :
    ∃ pre post, s.order = pre ++ w :: post ∧ s.backgroundw ∈ pre := by
  obtain ⟨pre, mid, post, eq⟩ := behind_split derezzed
  exact ⟨pre ++ s.backgroundw :: mid, post, by simp [eq], by simp⟩

/-- Every operation comes to an end and keeps the stack. -/
theorem perform_spec {s : State} (stacked : Stacked s s.order) {op : Op} (allowed : Allowed s op) :
    ∃ s', perform s op = some s' ∧ ∃ order, Stacked s' order := by
  have split : ∀ w ∈ s.order, ∃ pre post, Stacked s (pre ++ w :: post) := by
    intro w listed
    obtain ⟨pre, post, eq⟩ := List.append_of_mem listed
    exact ⟨pre, post, eq ▸ stacked⟩
  have derezzed_split : ∀ w, s.Derezzed w →
      ∃ pre post, Stacked s (pre ++ w :: post) ∧ s.backgroundw ∈ pre := by
    intro w derezzed
    obtain ⟨pre, post, eq, back⟩ := Mex.derezzed_split derezzed
    exact ⟨pre, post, eq ▸ stacked, back⟩
  cases op with
  | newwin => exact ⟨_, rfl, _, (wmNewwin_spec stacked).2.1⟩
  | pop w =>
    obtain ⟨pre, post, here⟩ := split w allowed
    obtain ⟨s', eq, stacked', -⟩ := wmPop_spec here
    exact ⟨s', eq, _, stacked'⟩
  | push w =>
    obtain ⟨pre, post, here⟩ := split w allowed
    obtain ⟨s', eq, stacked', -⟩ := wmPush_spec here
    exact ⟨s', eq, _, stacked'⟩
  | derez w =>
    obtain ⟨pre, post, here⟩ := split w allowed
    obtain ⟨s', eq, stacked', -⟩ := wmDerez_spec here
    exact ⟨s', eq, _, stacked'⟩
  | promote w1 w2 =>
    obtain ⟨pre, mid, post, eq⟩ := behind_split allowed
    obtain ⟨s', eq', stacked', -⟩ := wmPromote_spec (eq ▸ stacked)
    exact ⟨s', eq', _, stacked'⟩
  | resize w r =>
    obtain ⟨pre, post, here, back⟩ := derezzed_split w allowed
    exact ⟨_, (wmResize_spec here back r).1, _, (wmResize_spec here back r).2⟩
  | move w xmin ymin =>
    obtain ⟨pre, post, here, back⟩ := derezzed_split w allowed
    exact ⟨_, (wmMove_spec here back xmin ymin).1, _, (wmMove_spec here back xmin ymin).2⟩
  | freewin w =>
    obtain ⟨pre, post, here, back⟩ := derezzed_split w allowed
    exact ⟨_, rfl, _, wmFreewin_spec here back⟩

theorem reached_stacked {font : Font} {s : State} (reached : Reached font s) :
    Stacked s s.order := by
  induction reached with
  | init =>
    have stacked := wmInit_stacked font
    rwa [stacked.order_eq]
  | step _ allowed eq ih =>
    obtain ⟨s', eq', order, stacked⟩ := perform_spec ih allowed
    cases eq.symm.trans eq'
    rwa [stacked.order_eq]

/-- The pieces are rectangles that cut the screen up, and each window has the ones
    in the part of its rectangle no window in front has. -/
structure Partition (s : State) : Prop where
  /-- The two lists of a window hold the same pieces. -/
  lists : ∀ w ∈ s.order, (s.win w).xs.Perm (s.win w).ys ∧ (s.win w).ys.Nodup
  proper : ∀ w ∈ s.order, ∀ p ∈ (s.win w).ys, (s.piece p).Proper
  disjoint : ∀ w ∈ s.order, ∀ v ∈ s.order, ∀ p ∈ (s.win w).ys, ∀ q ∈ (s.win v).ys,
    (w, p) ≠ (v, q) → ∀ x y, ¬ ((s.piece p).has x y = true ∧ (s.piece q).has x y = true)
  covers : ∀ x y, screen.has x y = true ↔
    ∃ w ∈ s.order, ∃ p ∈ (s.win w).ys, (s.piece p).has x y = true
  shows : ∀ front w behind, s.order = front ++ w :: behind → ∀ x y,
    (∃ p ∈ (s.win w).ys, (s.piece p).has x y = true) ↔
      screen.has x y = true ∧ (s.win w).rect.has x y = true ∧
        ∀ v ∈ front, (s.win v).rect.has x y = false
  bare : ∀ w, s.Derezzed w → (s.win w).xs = [] ∧ (s.win w).ys = []

namespace Stacked

variable {s : State} {order front behind : List WinId} {w v : WinId} {x y : Int}

theorem cover_eq (stacked : Stacked s (front ++ w :: behind)) (x y : Int) :
    s.cover w x y =
      (screen.has x y && !hidden s x y front && (s.win w).rect.has x y).toNat :=
  (tiles_append.mp (stacked.tiles x y)).2.1

theorem shows_iff (stacked : Stacked s (front ++ w :: behind)) :
    (∃ p ∈ (s.win w).ys, (s.piece p).has x y = true) ↔
      screen.has x y = true ∧ (s.win w).rect.has x y = true ∧
        ∀ v ∈ front, (s.win v).rect.has x y = false := by
  have cover := stacked.cover_eq x y
  have none := cover_eq_zero_iff (s := s) (v := w) (x := x) (y := y)
  have clear : (∀ v ∈ front, (s.win v).rect.has x y = false) ↔ hidden s x y front = false := by
    simp [hidden]
  rw [clear]
  constructor
  · rintro ⟨p, listed, has⟩
    have shown : s.cover w x y ≠ 0 := fun zero => by
      rw [none.mp zero p listed] at has
      cases has
    rw [cover] at shown
    cases h₁ : screen.has x y <;> cases h₂ : hidden s x y front <;>
      cases h₃ : (s.win w).rect.has x y <;> simp_all
  · rintro ⟨inside, here, visible⟩
    by_contra no_piece
    have zero := none.mpr fun p listed => by
      cases has : (s.piece p).has x y with
      | false => rfl
      | true => exact absurd ⟨p, listed, has⟩ no_piece
    rw [cover, inside, here, visible] at zero
    cases zero

/-- No pixel is in two pieces of one window. -/
theorem disjoint_within (stacked : Stacked s (front ++ w :: behind)) {p q : PieceId}
    (listed : p ∈ (s.win w).ys) (listed' : q ∈ (s.win w).ys) (other : p ≠ q)
    (has : (s.piece p).has x y = true) (has' : (s.piece q).has x y = true) : False := by
  have cover := stacked.cover_eq x y
  have one := Bool.toNat_le (screen.has x y && !hidden s x y front && (s.win w).rect.has x y)
  have first := total_removepiece (f := fun r => r.count x y) listed
  have there : q ∈ ((removepiece p w s).win w).ys := by
    rw [removepiece_ys]
    exact (List.mem_erase_of_ne other.symm).mpr listed'
  have second := total_removepiece (f := fun r => r.count x y) there
  simp only [State.cover] at cover
  simp only [Rect.count, has, has', removepiece_piece, Bool.toNat_true] at first second cover
  omega

theorem partition (stacked : Stacked s s.order) : Partition s := by
  have split : ∀ w ∈ s.order, ∃ front behind, s.order = front ++ w :: behind := fun w listed =>
    List.append_of_mem listed
  constructor
  case lists => exact fun w _ => ⟨stacked.tidy.perm w, stacked.tidy.nodup w⟩
  case proper => exact fun w _ => stacked.tidy.proper w
  case shows =>
    intro front w behind eq x y
    exact shows_iff (eq ▸ stacked)
  case bare =>
    intro w derezzed
    obtain ⟨pre, post, eq, back⟩ := derezzed_split derezzed
    have ys : (s.win w).ys = [] := bare_of_cover stacked.tidy fun x y =>
      (eq ▸ stacked : Stacked s (pre ++ w :: post)).cover_behind back (List.mem_cons_self ..) x y
    exact ⟨(ys ▸ stacked.tidy.perm w).eq_nil, ys⟩
  case covers =>
    intro x y
    have sum := (stacked.tiles x y).sum
    have hidden := (by rwa [List.append_nil] : Stacked s (s.order ++ [])).hidden_behind
      stacked.background x y
    constructor
    · intro inside
      by_contra none
      have zero : ∀ w ∈ s.order, s.cover w x y = 0 := by
        intro w listed
        refine cover_eq_zero_iff.mpr fun p there => ?_
        cases has : (s.piece p).has x y with
        | false => rfl
        | true => exact absurd ⟨w, listed, p, there, has⟩ none
      rw [hidden, inside, List.map_congr_left zero] at sum
      simp at sum
    · rintro ⟨w, listed, p, there, has⟩
      obtain ⟨front, behind, eq⟩ := split w listed
      exact ((shows_iff (eq ▸ stacked)).mp ⟨p, there, has⟩).1
  case disjoint =>
    intro w listed v listed' p there q there' other x y ⟨has, has'⟩
    obtain ⟨front, behind, eq⟩ := split w listed
    have here : Stacked s (front ++ w :: behind) := eq ▸ stacked
    by_cases same : v = w
    · subst same
      exact here.disjoint_within there there' (fun eq => other (by rw [eq])) has has'
    · -- the window in front hides the pixel from the other one
      have shown := here.shows_iff.mp ⟨p, there, has⟩
      rw [eq, List.mem_append, List.mem_cons] at listed'
      rcases listed' with front' | same' | behind'
      · have visible := shown.2.2 v front'
        obtain ⟨front'', behind'', eq'⟩ := split v (by rw [eq]; exact List.mem_append_left _ front')
        have shown' := (shows_iff (eq' ▸ stacked)).mp ⟨q, there', has'⟩
        rw [visible] at shown'
        cases shown'.2.1
      · exact same same'
      · obtain ⟨mid, rest, eq'⟩ := List.append_of_mem behind'
        have there'' : Stacked s ((front ++ w :: mid) ++ v :: rest) := by
          rw [eq'] at here
          simpa using here
        have shown' := there''.shows_iff.mp ⟨q, there', has'⟩
        have visible := shown'.2.2 w (by simp)
        rw [shown.2.1] at visible
        cases visible

end Stacked

/-- After any sequence of operations the windows show what they should, and the
    next operation comes to an end. -/
theorem pieces_partition_screen (font : Font) (s : State) (reached : Reached font s) :
    Partition s ∧ ∀ op, Allowed s op → (perform s op).isSome := by
  refine ⟨(reached_stacked reached).partition, fun op allowed => ?_⟩
  obtain ⟨s', eq, -⟩ := perform_spec (reached_stacked reached) allowed
  rw [eq]
  rfl

theorem pieces_partition_screen_popped :
    ∃ s, perform (wmNewwin (wmInit ⟨9, 16, 18⟩)).2 (.pop 1) = some s ∧ Partition s := by
  have start : Reached ⟨9, 16, 18⟩ (wmNewwin (wmInit ⟨9, 16, 18⟩)).2 :=
    @Reached.step _ _ _ .newwin .init trivial rfl
  have allowed : Allowed (wmNewwin (wmInit ⟨9, 16, 18⟩)).2 (.pop 1) :=
    (by decide : 1 ∈ (wmNewwin (wmInit ⟨9, 16, 18⟩)).2.order)
  obtain ⟨s, eq⟩ := Option.isSome_iff_exists.mp
    ((pieces_partition_screen _ _ start).2 _ allowed)
  exact ⟨s, eq, (pieces_partition_screen _ s (.step start allowed eq)).1⟩

end Irix.Mex
