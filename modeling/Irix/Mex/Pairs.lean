import Irix.Mex.Manager

/-! # Pairs of windows and borders

The window list as the window manager means it: pairs of a window and its border
in front of the background window and behind it.  The operations on windows are
moves of pairs, as long as they are not asked for the background window.
-/

namespace Irix.Mex

open Lib (Rect)
open Lib.Linked

structure Pairs where
  front : List (WinId × WinId)
  /-- The derezzed windows. -/
  behind : List (WinId × WinId)
  deriving DecidableEq, Repr

/-- The windows and borders of the pairs. -/
def unpair (l : List (WinId × WinId)) : List WinId := l.flatMap fun p => [p.1, p.2]

def Pairs.order (background : WinId) (pairs : Pairs) : List WinId :=
  unpair pairs.front ++ background :: unpair pairs.behind

/-- The pair of a window. -/
def pick (w : WinId) (l : List (WinId × WinId)) : List (WinId × WinId) :=
  l.filter fun p => decide (p.1 = w)

def others (w : WinId) (l : List (WinId × WinId)) : List (WinId × WinId) :=
  l.filter fun p => decide (p.1 ≠ w)

inductive WnOp where
  | newwin
  | initconsole (r : Rect)
  | pop (w : WinId)
  | push (w : WinId)
  | resize (w : WinId) (r : Rect)
  | derez (w : WinId)
  | destroy (w : WinId) (kill : Bool)

def WnOp.window : WnOp → Option WinId
  | .newwin => none
  | .initconsole _ => none
  | .pop w => some w
  | .push w => some w
  | .resize w _ => some w
  | .derez w => some w
  | .destroy w _ => some w

def WnOp.creates : WnOp → Bool
  | .newwin => true
  | .initconsole _ => true
  | _ => false

def wnPerform (s : State) : WnOp → Option State
  | .newwin => some (wnNewwin s).2
  | .initconsole r => wnInitconsole r s
  | .pop w => wnPop (some w) s
  | .push w => wnPush (some w) s
  | .resize w r => wnResize w r s
  | .derez w => wnDerez w s
  | .destroy w kill => wnDestroy (some w) kill s

/-- What becomes of the pairs: one is moved, or none. -/
def Pairs.move (s : State) (pairs : Pairs) : WnOp → Pairs
  | .newwin =>
    { pairs with behind := pairs.behind ++ [((wnNewwin s).1, newBorder s)] }
  | .initconsole _ =>
    { pairs with front := ((wnNewwin s).1, newBorder s) :: pairs.front }
  | .pop w =>
    { front := pick w (pairs.front ++ pairs.behind) ++ others w pairs.front
      behind := others w pairs.behind }
  | .push w =>
    { front := others w pairs.front ++ pick w pairs.front
      behind := others w pairs.behind ++ pick w pairs.behind }
  | .resize _ _ => pairs
  | .derez w =>
    { front := others w pairs.front
      behind := others w pairs.behind ++ pick w (pairs.front ++ pairs.behind) }
  | .destroy w _ =>
    if s.winConsole = some w then pairs
    else { front := others w pairs.front, behind := others w pairs.behind }

/-- The window an operation is asked for is one with a border, or the background
    window: a client which registered as the background is found there. -/
def Asked (s : State) (pairs : Pairs) (op : WnOp) : Prop :=
  ∀ w, op.window = some w →
    w = s.backgroundw ∨ w ∈ (pairs.front ++ pairs.behind).map Prod.fst

/-- The background window is only asked to lose its client. -/
def Spares (s : State) (op : WnOp) : Prop :=
  op.window = some s.backgroundw → ∃ kill, op = .destroy s.backgroundw kill

/-- The runs which spare the background window. -/
inductive Reaches (font : Font) : State → Pairs → Prop
  | init : Reaches font (wmInit font) ⟨[], []⟩
  | step {s s' : State} {pairs : Pairs} {op : WnOp} (reaches : Reaches font s pairs)
      (asked : Asked s pairs op) (spares : Spares s op) (eq : wnPerform s op = some s') :
      Reaches font s' (pairs.move s op)

section

variable {l l' f g : List (WinId × WinId)} {w b background : WinId}

@[simp] theorem unpair_nil : unpair [] = [] := rfl

@[simp] theorem unpair_cons (p : WinId × WinId) : unpair (p :: l) = p.1 :: p.2 :: unpair l := rfl

@[simp] theorem unpair_append : unpair (l ++ l') = unpair l ++ unpair l' :=
  List.flatMap_append

theorem mem_unpair {p : WinId × WinId} (listed : p ∈ l) : p.1 ∈ unpair l :=
  List.mem_flatMap.mpr ⟨p, listed, List.mem_cons_self ..⟩

theorem pick_none (out : w ∉ unpair l) : pick w l = [] ∧ others w l = l := by
  have other : ∀ p ∈ l, p.1 ≠ w := fun p listed same => out (same ▸ mem_unpair listed)
  refine ⟨List.filter_eq_nil_iff.mpr fun p listed => ?_, List.filter_eq_self.mpr fun p listed => ?_⟩
  · simp [other p listed]
  · simp [other p listed]

@[simp] theorem pick_append : pick w (l ++ l') = pick w l ++ pick w l' := List.filter_append ..

@[simp] theorem others_append : others w (l ++ l') = others w l ++ others w l' :=
  List.filter_append ..

@[simp] theorem pick_self : pick w ((w, b) :: l) = (w, b) :: pick w l := by
  simp [pick]

@[simp] theorem others_self : others w ((w, b) :: l) = others w l := by
  simp [others]

theorem pick_split (out : w ∉ unpair f) (out' : w ∉ unpair g) :
    pick w (f ++ (w, b) :: g) = [(w, b)] ∧ others w (f ++ (w, b) :: g) = f ++ g := by
  simp only [pick_append, others_append, pick_self, others_self, pick_none out, pick_none out',
    List.nil_append, and_self]

theorem takeWhile_background (out : background ∉ unpair l) (rest : List WinId) :
    ((unpair l ++ background :: rest).takeWhile fun v => decide (v ≠ background)) = unpair l ∧
      ((unpair l ++ background :: rest).dropWhile fun v => decide (v ≠ background)) =
        background :: rest := by
  have go : ∀ v ∈ unpair l, decide (v ≠ background) = true := fun v listed =>
    decide_eq_true (ne_of_mem_of_not_mem listed out)
  rw [List.takeWhile_append_of_pos go, List.dropWhile_append_of_pos go]
  simp

theorem takeWhile_all (out : background ∉ unpair l) :
    ((unpair l).takeWhile fun v => decide (v ≠ background)) = unpair l ∧
      ((unpair l).dropWhile fun v => decide (v ≠ background)) = [] := by
  have go : ∀ v ∈ unpair l, decide (v ≠ background) = true := fun v listed =>
    decide_eq_true (ne_of_mem_of_not_mem listed out)
  have take := @List.takeWhile_append_of_pos _ _ (unpair l) [] go
  have drop := @List.dropWhile_append_of_pos _ _ (unpair l) [] go
  simpa using And.intro take drop

end

section

variable {s : State} {pairs : Pairs} {w : WinId}

/-- Where the pair of a window stands in the list, and what moving it comes to
    there. -/
structure Placed (s : State) (pairs : Pairs) (w b : WinId) (pre post : List WinId) : Prop where
  stacked : Stacked s (pre ++ w :: b :: post)
  plain : w ≠ s.backgroundw
  plain' : b ≠ s.backgroundw
  stay : pairs.order s.backgroundw = pre ++ w :: b :: post
  pop : (pairs.move s (.pop w)).order s.backgroundw = w :: b :: (pre ++ post)
  push : (pairs.move s (.push w)).order s.backgroundw =
    pre ++ (post.takeWhile (fun v => decide (v ≠ s.backgroundw)) ++
      w :: b :: post.dropWhile fun v => decide (v ≠ s.backgroundw))
  derez : (pairs.move s (.derez w)).order s.backgroundw = pre ++ (post ++ [w, b])
  drop : ({ front := others w pairs.front, behind := others w pairs.behind } : Pairs).order
    s.backgroundw = pre ++ post

theorem placed (stacked : Stacked s (pairs.order s.backgroundw))
    (listed : w ∈ (pairs.front ++ pairs.behind).map Prod.fst) :
    ∃ b pre post, Placed s pairs w b pre post := by
  have nodup := stacked.chain.nodup
  obtain ⟨⟨w', b⟩, there, same⟩ := List.mem_map.mp listed
  cases same
  simp only [Pairs.order] at nodup
  rcases List.mem_append.mp there with front | behind
  · obtain ⟨f, g, eq⟩ := List.append_of_mem front
    rw [eq] at nodup
    simp only [unpair_append, unpair_cons] at nodup
    have out : w' ∉ unpair f := by grind
    have out' : w' ∉ unpair g := by grind
    have away : w' ∉ unpair pairs.behind := by grind
    have past : s.backgroundw ∉ unpair g := by grind
    obtain ⟨picked, left⟩ := pick_split (b := b) out out'
    obtain ⟨none, all⟩ := pick_none away
    have stay : pairs.order s.backgroundw =
        unpair f ++ w' :: b :: (unpair g ++ s.backgroundw :: unpair pairs.behind) := by
      simp [Pairs.order, eq]
    refine ⟨b, _, _, stay ▸ stacked, by grind, by grind, stay, ?_, ?_, ?_, ?_⟩
    · simp only [Pairs.order, Pairs.move, pick_append, eq, picked, left, none, all]
      simp
    · rw [(takeWhile_background past _).1, (takeWhile_background past _).2]
      simp only [Pairs.order, Pairs.move, eq, picked, left, none, all]
      simp
    · simp only [Pairs.order, Pairs.move, pick_append, eq, picked, left, none, all]
      simp
    · simp only [Pairs.order, eq, left, all]
      simp
  · obtain ⟨f, g, eq⟩ := List.append_of_mem behind
    rw [eq] at nodup
    simp only [unpair_append, unpair_cons] at nodup
    have out : w' ∉ unpair f := by grind
    have out' : w' ∉ unpair g := by grind
    have away : w' ∉ unpair pairs.front := by grind
    have past : s.backgroundw ∉ unpair g := by grind
    obtain ⟨picked, left⟩ := pick_split (b := b) out out'
    obtain ⟨none, all⟩ := pick_none away
    have stay : pairs.order s.backgroundw =
        (unpair pairs.front ++ s.backgroundw :: unpair f) ++ w' :: b :: unpair g := by
      simp [Pairs.order, eq]
    refine ⟨b, _, _, stay ▸ stacked, by grind, by grind, stay, ?_, ?_, ?_, ?_⟩
    · simp only [Pairs.order, Pairs.move, pick_append, eq, picked, left, none, all]
      simp
    · rw [(takeWhile_all past).1, (takeWhile_all past).2]
      simp only [Pairs.order, Pairs.move, eq, picked, left, none, all]
      simp
    · simp only [Pairs.order, Pairs.move, pick_append, eq, picked, left, none, all]
      simp
    · simp only [Pairs.order, eq, left, all]
      simp

/-- What an operation on a window with a border does: its pair is moved, and of the
    other windows nothing is lost that has to be known. -/
structure Performed (s : State) (pairs : Pairs) (op : WnOp) (s' : State) : Prop where
  eq : wnPerform s op = some s'
  background : s'.backgroundw = s.backgroundw
  stacked : Stacked s' ((pairs.move s op).order s.backgroundw)
  noted : ∀ l, (∀ v ∈ l, v ∈ pairs.order s.backgroundw ∧
    v ∈ (pairs.move s op).order s.backgroundw) → Noted l s s'
  unseen : op.creates = true →
    Unseen s' (wnNewwin s).1 ∧ (wnNewwin s).1 ∉ pairs.order s.backgroundw

theorem wnPerform_spec {op : WnOp} (stacked : Stacked s (pairs.order s.backgroundw))
    (asked : Asked s pairs op) (spares : Spares s op) : ∃ s', Performed s pairs op s' := by
  have placed : ∀ w, op.window = some w → (∀ kill, op ≠ .destroy s.backgroundw kill) →
      ∃ b pre post, Placed s pairs w b pre post := by
    intro w window other
    rcases asked w window with same | listed
    · obtain ⟨kill, eq⟩ := spares (same ▸ window)
      exact absurd eq (other kill)
    · exact placed stacked listed
  cases op with
  | newwin =>
    obtain ⟨stacked', same, background, piece, unseen, out⟩ := wnNewwin_spec stacked
    refine ⟨_, rfl, background, ?_, fun l listed => ?_, fun _ => ⟨unseen, out⟩⟩
    · simpa [Pairs.order, Pairs.move] using stacked'
    · exact noted_of_same (fun v there => same v (listed v there).1) piece
  | initconsole r =>
    obtain ⟨s', eq, stacked', noted, background, unseen⟩ := wnInitconsole_spec stacked r
    have out := (wnNewwin_spec stacked).2.2.2.2.2
    refine ⟨s', eq, background, ?_, fun l listed => ?_, fun _ => ⟨unseen, out⟩⟩
    · simpa [Pairs.order, Pairs.move] using stacked'
    · exact noted.mono fun v there => (listed v there).1
  | pop w =>
    obtain ⟨b, pre, post, here⟩ := placed w rfl (fun _ same => by cases same)
    obtain ⟨s', eq, stacked', kept⟩ := wnPop_spec here.stacked
    exact ⟨s', eq, kept.backgroundw, here.pop ▸ stacked', fun _ _ => .of_kept kept,
      fun new => by cases new⟩
  | push w =>
    obtain ⟨b, pre, post, here⟩ := placed w rfl (fun _ same => by cases same)
    obtain ⟨s', eq, stacked', kept⟩ := wnPush_spec here.stacked
    exact ⟨s', eq, kept.backgroundw, here.push ▸ stacked', fun _ _ => .of_kept kept,
      fun new => by cases new⟩
  | resize w r =>
    obtain ⟨b, pre, post, here⟩ := placed w rfl (fun _ same => by cases same)
    obtain ⟨s', eq, stacked', noted, background⟩ :=
      wnResize_spec (l := pre ++ w :: b :: post) here.stacked here.plain here.plain' r
    refine ⟨s', eq, background, ?_, fun l listed => ?_, fun new => by cases new⟩
    · rw [Pairs.move, here.stay]
      exact stacked'
    · exact noted.mono fun v there => here.stay ▸ (listed v there).1
  | derez w =>
    obtain ⟨b, pre, post, here⟩ := placed w rfl (fun _ same => by cases same)
    obtain ⟨s', eq, stacked', kept⟩ := wnDerez_spec here.stacked
    exact ⟨s', eq, kept.backgroundw, here.derez ▸ stacked', fun _ _ => .of_kept kept,
      fun new => by cases new⟩
  | destroy w kill =>
    by_cases console : s.winConsole = some w
    · refine ⟨s, wnDestroy_console console, rfl, ?_, fun _ _ => .refl s, fun new => by cases new⟩
      rw [Pairs.move, if_pos console]
      exact stacked
    by_cases background : w = s.backgroundw
    · subst background
      obtain ⟨s', eq, stacked', noted, background⟩ :
          ∃ s', wnDestroy (some s.backgroundw) kill s = some s' ∧
            Stacked s' (pairs.order s.backgroundw) ∧ Noted (pairs.order s.backgroundw) s s' ∧
            s'.backgroundw = s.backgroundw :=
        wnDestroy_background stacked console
      have nodup := stacked.chain.nodup
      simp only [Pairs.order] at nodup
      have out : s.backgroundw ∉ unpair pairs.front ∧ s.backgroundw ∉ unpair pairs.behind := by
        grind
      have order : pairs.move s (.destroy s.backgroundw kill) = pairs := by
        rw [Pairs.move, if_neg console, (pick_none out.1).2, (pick_none out.2).2]
      refine ⟨s', eq, background, ?_, fun l listed => ?_, fun new => by cases new⟩
      · rw [order]
        exact stacked'
      · exact noted.mono fun v there => (listed v there).1
    · obtain ⟨b, pre, post, here⟩ := placed w rfl fun kill same => by
        cases same
        exact background rfl
      obtain ⟨s', eq, stacked', noted, background⟩ :=
        wnDestroy_spec here.stacked here.plain here.plain' console
      have order : (pairs.move s (.destroy w kill)).order s.backgroundw = pre ++ post := by
        rw [Pairs.move, if_neg console]
        exact here.drop
      exact ⟨s', eq, background, order ▸ stacked', fun l listed =>
        noted.mono fun v there => order ▸ (listed v there).2, fun new => by cases new⟩

end

/-! ## Runs -/

theorem reaches_stacked {font : Font} {s : State} {pairs : Pairs}
    (reaches : Reaches font s pairs) : Stacked s (pairs.order s.backgroundw) := by
  induction reaches with
  | init => exact wmInit_stacked font
  | step _ asked spares eq ih =>
    obtain ⟨s', performed⟩ := wnPerform_spec ih asked spares
    cases eq.symm.trans performed.eq
    rw [performed.background]
    exact performed.stacked

/-- The pairs but for one, which may stand elsewhere. -/
def Pairs.without (w : WinId) (pairs : Pairs) : Pairs :=
  { front := others w pairs.front, behind := others w pairs.behind }

theorem others_pick (w : WinId) (l : List (WinId × WinId)) :
    others w (pick w l) = [] ∧ others w (others w l) = others w l := by
  simp only [others, pick, List.filter_filter]
  constructor
  · simp
  · simp

/-- Popping, pushing and derezzing move one pair at most. -/
theorem move_without (s : State) (pairs : Pairs) (op : WnOp) (w : WinId)
    (moves : op = .pop w ∨ op = .push w ∨ op = .derez w) :
    (pairs.move s op).without w = pairs.without w := by
  rcases moves with rfl | rfl | rfl
  all_goals
    simp only [Pairs.move, Pairs.without, others_append, (others_pick w _).1, (others_pick w _).2,
      List.nil_append, List.append_nil]

/-- The window list is the list of the pairs with the background window among
    them, linked both ways, and each operation moves one pair or none. -/
theorem windows_in_pairs (font : Font) (s : State) (pairs : Pairs)
    (reaches : Reaches font s pairs) :
    Chain s.list (pairs.order s.backgroundw) ∧
      (∀ w ∈ pairs.order s.backgroundw, (s.win w).dummy = true ↔ w = s.backgroundw) ∧
      ∀ op, Asked s pairs op → Spares s op →
        (∃ s', wnPerform s op = some s' ∧
          Chain s'.list ((pairs.move s op).order s'.backgroundw)) ∧
        (∀ w, op = .pop w ∨ op = .push w → (pairs.move s op).without w = pairs.without w) ∧
        ∀ w r, op = .resize w r → pairs.move s op = pairs := by
  have stacked := reaches_stacked reaches
  refine ⟨stacked.chain, stacked.dummy, fun op asked spares => ⟨?_, fun w moves => ?_, ?_⟩⟩
  · obtain ⟨s', performed⟩ := wnPerform_spec stacked asked spares
    refine ⟨s', performed.eq, ?_⟩
    rw [performed.background]
    exact performed.stacked.chain
  · exact move_without s pairs op w (moves.imp_right .inl)
  · rintro w r rfl
    rfl

theorem windows_in_pairs_popped :
    ∃ s, wnPerform (wnNewwin (wmInit ⟨9, 16, 18⟩)).2 (.pop 1) = some s ∧
      Chain s.list (Pairs.order s.backgroundw ⟨[(1, 2)], []⟩) := by
  have start : Reaches ⟨9, 16, 18⟩ (wnNewwin (wmInit ⟨9, 16, 18⟩)).2 ⟨[], [(1, 2)]⟩ :=
    @Reaches.step _ _ _ _ .newwin .init (fun _ none => by cases none) (fun none => by cases none) rfl
  have asked : Asked (wnNewwin (wmInit ⟨9, 16, 18⟩)).2 ⟨[], [(1, 2)]⟩ (.pop 1) := by
    intro w window
    cases window
    exact .inr (List.mem_singleton_self _)
  have spares : Spares (wnNewwin (wmInit ⟨9, 16, 18⟩)).2 (.pop 1) := fun same =>
    absurd same (by decide)
  exact ((windows_in_pairs _ _ _ start).2.2 _ asked spares).1

/-- A client which registered as the background pushes its window while a new
    window is still derezzed: the border of the new window ends up in front of
    everything and the window behind. -/
theorem background_push_splits_pair :
    Reaches ⟨9, 16, 18⟩ (wnNewwin (wmInit ⟨9, 16, 18⟩)).2 ⟨[], [(1, 2)]⟩ ∧
      Asked (wnNewwin (wmInit ⟨9, 16, 18⟩)).2 ⟨[], [(1, 2)]⟩ (.push 0) ∧
      (wnPerform (wnNewwin (wmInit ⟨9, 16, 18⟩)).2 (.push 0)).map State.order = some [2, 0, 1] ∧
      ∀ pairs : Pairs, pairs.order 0 ≠ [2, 0, 1] := by
  refine ⟨@Reaches.step _ _ _ _ .newwin .init (fun _ none => by cases none)
    (fun none => by cases none) rfl, ?_, by decide, ?_⟩
  · intro w window
    cases window
    exact .inl rfl
  · rintro ⟨front, behind⟩ same
    -- an even number of windows stands in front of the background window
    cases front with
    | nil => simp [Pairs.order] at same
    | cons p front =>
      simp only [Pairs.order, unpair_cons, List.cons_append, List.cons.injEq] at same
      obtain ⟨-, -, rest⟩ := same
      cases front with
      | nil => simp at rest
      | cons q front => simp at rest

end Irix.Mex
