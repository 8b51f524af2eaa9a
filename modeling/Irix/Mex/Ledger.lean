import Irix.Mex.Repaint

/-! # No lost repaint

A ledger of what each window was last sent and where it was last told to redraw,
kept along a run of the window manager.  A window that shows a pixel it did not
show when it was last told to redraw is told at the next repaint, unless its
checksum is mistaken for the one of other pieces.
-/

namespace Irix.Mex

open Function
open Lib (Rect)

/-- What a window knows of its pieces. -/
structure Seen where
  /-- The pieces it was last sent. -/
  sent : List Rect := []
  /-- Its pieces when it was last told to redraw. -/
  told : List Rect := []

def Seen.note (seen : Seen) : Event → Seen
  | .clear pieces => { seen with told := pieces }
  | .border _ => seen
  | .setpieces _ m =>
    { sent := m.pieces, told := if m.doredraw then m.pieces else seen.told }

def noteAll (background : WinId) (ledger : WinId → Seen) (events : List Event) : WinId → Seen :=
  fun w => (events.filter (Event.concerns background w)).foldl Seen.note (ledger w)

/-- The window manager together with what its clients know. -/
structure World where
  s : State
  pairs : Pairs
  ledger : WinId → Seen

inductive Act where
  | op (op : WnOp)
  | makebackground (icnum gfnum : Int)
  | repaint (how : Bool)

def Pairs.windows (pairs : Pairs) : List WinId := (pairs.front ++ pairs.behind).map Prod.fst

def World.note (world : World) (s : State) (events : List Event) : World :=
  { world with s := s, ledger := noteAll world.s.backgroundw world.ledger events }

/-- A window that was just created knows nothing, whatever window had its record
    before. -/
def act (world : World) : Act → Option World
  | .op op => do
    let s ← wnPerform world.s op
    let ledger := if op.creates then update world.ledger (wnNewwin world.s).1 {} else world.ledger
    some { s := s, pairs := world.pairs.move world.s op, ledger := ledger }
  | .makebackground icnum gfnum => do
    let (s, events) ← makebackground icnum gfnum world.s
    some (world.note s events)
  | .repaint how => do
    let (s, events) ← wnRepaint how world.s
    some (world.note s events)

/-- The world after `wm_init`, before there is a window. -/
def initWorld (font : Font) : World :=
  { s := wmInit font, pairs := ⟨[], []⟩, ledger := fun _ => {} }

/-- The world after `wm_init`, `wn_initconsole` and the first clearing of the
    background; `console` is what the system says of the textport. -/
def startWorld (font : Font) (console : Rect) : Option World := do
  let world ← act (initWorld font) (.op (.initconsole console))
  let (s, events) ← background true world.s
  some (world.note s events)

def AskedAct (world : World) : Act → Prop
  | .op op => Asked world.s world.pairs op
  | _ => True

/-- The runs whose acts meet a condition. -/
inductive Painted (font : Font) (console : Rect) (ok : World → Act → Prop) : World → Prop
  | start {world : World} (eq : startWorld font console = some world) :
      Painted font console ok world
  | step {world world' : World} {a : Act} (painted : Painted font console ok world)
      (asked : AskedAct world a) (met : ok world a) (eq : act world a = some world') :
      Painted font console ok world'

/-- Some rectangle of the list has the pixel. -/
def covered (l : List Rect) (x y : Int) : Bool := l.any fun r => r.has x y

/-- A window which shows a pixel it did not show when it was last told to redraw is
    told, and one with other pieces than it was sent is sent them.  Where the
    background has no client it is cleared instead. -/
structure Complete (world : World) (events : List Event) : Prop where
  redrawn : ∀ w ∈ world.pairs.windows, ∀ x y, covered (world.s.shown w) x y = true →
    covered (world.ledger w).told x y = false →
    ∃ m, Event.setpieces w m ∈ events ∧ m.doredraw = true ∧ m.pieces = world.s.shown w
  sent : ∀ w ∈ world.pairs.windows, world.s.shown w ≠ (world.ledger w).sent →
    ∃ m, Event.setpieces w m ∈ events ∧ m.pieces = world.s.shown w
  cleared : ∀ x y, covered (world.s.shown world.s.backgroundw) x y = true →
    covered (world.ledger world.s.backgroundw).told x y = false →
    Event.clear (world.s.shown world.s.backgroundw) ∈ events ∨
      ∃ m, Event.setpieces world.s.backgroundw m ∈ events ∧ m.doredraw = true ∧
        m.pieces = world.s.shown world.s.backgroundw
  client : (world.s.win world.s.backgroundw).inchan ≠ -1 →
    world.s.shown world.s.backgroundw ≠ (world.ledger world.s.backgroundw).sent →
    ∃ m, Event.setpieces world.s.backgroundw m ∈ events ∧
      m.pieces = world.s.shown world.s.backgroundw

/-- No checksum is mistaken: a window to be repainted whose checksum is its shadow
    has the pieces it was sent.  The pieces of every window fit the buffer. -/
structure Faithful (how : Bool) (world : World) : Prop where
  check : ∀ w ∈ world.pairs.windows, (how || (world.s.win w).redisplay) = true →
    (if how then 0 else (world.s.win w).shadow) = piececheck world.s w →
    world.s.shown w = (world.ledger w).sent
  fits : ∀ w ∈ world.pairs.windows, Fits world.s w
  client : (world.s.win world.s.backgroundw).inchan ≠ -1 → Fits world.s world.s.backgroundw

/-- The condition under which no repaint is lost. -/
def Trusted (world : World) : Act → Prop
  | .op op => Spares world.s op
  | .makebackground _ _ => Fits world.s world.s.backgroundw
  | .repaint how => Faithful how world

/-! ## What the ledger says between repaints -/

structure Known (s : State) (seen : Seen) (w : WinId) : Prop where
  fullscreen : (s.win w).fullscreen = false
  sent : (s.win w).newpieces = false → s.shown w = seen.sent
  told : (s.win w).redisplay = false → ∀ x y, covered (s.shown w) x y = true →
    covered seen.told x y = true
  within : ∀ x y, covered seen.sent x y = true → covered seen.told x y = true

structure KnownBackground (s : State) (seen : Seen) : Prop where
  fullscreen : (s.win s.backgroundw).fullscreen = false
  sent : (s.win s.backgroundw).newpieces = false → (s.win s.backgroundw).inchan ≠ -1 →
    s.shown s.backgroundw = seen.sent
  told : (s.win s.backgroundw).redisplay = false → ∀ x y,
    covered (s.shown s.backgroundw) x y = true → covered seen.told x y = true

section

variable {s s' : State} {w : WinId} {seen : Seen}

theorem covered_eq_false_iff {x y : Int} : covered (s.shown w) x y = false ↔ s.cover w x y = 0 := by
  rw [cover_eq_zero_iff, covered, State.shown]
  simp

theorem shown_eq (ys : (s'.win w).ys = (s.win w).ys)
    (same : ∀ p ∈ (s.win w).ys, s'.piece p = s.piece p) : s'.shown w = s.shown w := by
  rw [State.shown, ys]
  exact List.map_congr_left same

/-- A pixel that is shown after a change the window does not know of was shown
    before. -/
theorem covered_mono {x y : Int} (le : s'.cover w x y ≤ s.cover w x y)
    (shown : covered (s'.shown w) x y = true) : covered (s.shown w) x y = true := by
  cases before : covered (s.shown w) x y with
  | true => rfl
  | false =>
    rw [covered_eq_false_iff.mp before] at le
    rw [covered_eq_false_iff.mpr (Nat.le_zero.mp le)] at shown
    cases shown

theorem Known.noted (known : Known s seen w) {l : List WinId} (listed : w ∈ l)
    (noted : Noted l s s') : Known s' seen w := by
  constructor
  case fullscreen => exact (noted.fullscreen w listed).trans known.fullscreen
  case within => exact known.within
  case sent =>
    intro quiet
    obtain ⟨quiet', ys, same⟩ := noted.told w listed quiet
    rw [shown_eq ys same, known.sent quiet']
  case told =>
    intro quiet x y shown
    have quiet' : (s.win w).redisplay = false := by
      cases marked : (s.win w).redisplay with
      | false => rfl
      | true => rw [noted.marked w listed marked] at quiet; cases quiet
    exact known.told quiet' x y (covered_mono (noted.gained w listed quiet x y) shown)

theorem KnownBackground.noted (known : KnownBackground s seen) {l : List WinId}
    (listed : s.backgroundw ∈ l) (same : s'.backgroundw = s.backgroundw) (noted : Noted l s s') :
    KnownBackground s' seen := by
  constructor
  case fullscreen =>
    rw [same]
    exact (noted.fullscreen _ listed).trans known.fullscreen
  case sent =>
    rw [same]
    intro quiet client
    obtain ⟨quiet', ys, same⟩ := noted.told _ listed quiet
    rw [shown_eq ys same, known.sent quiet' (noted.inchan _ listed client)]
  case told =>
    rw [same]
    intro quiet x y shown
    have quiet' : (s.win s.backgroundw).redisplay = false := by
      cases marked : (s.win s.backgroundw).redisplay with
      | false => rfl
      | true => rw [noted.marked _ listed marked] at quiet; cases quiet
    exact known.told quiet' x y (covered_mono (noted.gained _ listed quiet x y) shown)

theorem Unseen.known (unseen : Unseen s w) : Known s {} w := by
  constructor
  case fullscreen => exact unseen.fullscreen
  case within => exact fun _ _ none => none
  case sent =>
    intro quiet
    rw [State.shown, unseen.told quiet]
    rfl
  case told =>
    intro quiet x y shown
    rw [covered_eq_false_iff.mpr (unseen.gained quiet x y)] at shown
    cases shown

theorem setpiece_pieces (plain : (s.win w).fullscreen = false) (doredraw : Bool) :
    (setpiece s w doredraw).pieces = s.shown w ∧
      (setpiece s w doredraw).doredraw = doredraw := by
  simp only [setpiece, plain, Bool.false_eq_true, if_false]
  split <;> exact ⟨rfl, rfl⟩

/-- A window at a repaint. -/
theorem Known.repaint {how : Bool} {background : WinId} {events : List Event}
    (known : Known s seen w) (flagged : Flagged s s')
    (check : (how || (s.win w).redisplay) = true →
      (if how then 0 else (s.win w).shadow) = piececheck s w → s.shown w = seen.sent)
    (told : events.filter (Event.concerns background w) = outcome how s w) :
    Known s' ((events.filter (Event.concerns background w)).foldl Seen.note seen) w ∧
      (∀ x y, covered (s.shown w) x y = true → covered seen.told x y = false →
        ∃ m, Event.setpieces w m ∈ events ∧ m.doredraw = true ∧ m.pieces = s.shown w) ∧
      (s.shown w ≠ seen.sent → ∃ m, Event.setpieces w m ∈ events ∧ m.pieces = s.shown w) := by
  obtain ⟨pieces, redraw⟩ := setpiece_pieces known.fullscreen (redraws how s w)
  have fullscreen : (s'.win w).fullscreen = false := by
    rw [flagged.win]
    exact known.fullscreen
  -- without a redraw nothing is shown that was not shown before
  have old : redraws how s w = false → ∀ x y, covered (s.shown w) x y = true →
      covered seen.told x y = true := by
    intro quiet x y shown
    cases marked : (how || (s.win w).redisplay) with
    | false => exact known.told (Bool.or_eq_false_iff.mp marked).2 x y shown
    | true =>
      rw [redraws, marked, Bool.true_and, decide_eq_false_iff_not, not_not] at quiet
      rw [check marked quiet] at shown
      exact known.within x y shown
  have sent : sends how s w = true →
      Event.setpieces w (setpiece s w (redraws how s w)) ∈ events := by
    intro send
    have listed : Event.setpieces w (setpiece s w (redraws how s w)) ∈ outcome how s w := by
      rw [outcome, send]
      exact List.mem_singleton_self _
    rw [← told] at listed
    exact (List.mem_filter.mp listed).1
  refine ⟨?_, fun x y shown lost => ?_, fun other => ?_⟩
  · rw [told, outcome]
    cases send : sends how s w with
    | true =>
      have covers : ∀ x y, covered (s.shown w) x y = true →
          covered (if redraws how s w then s.shown w else seen.told) x y = true := by
        intro x y shown
        split
        next => exact shown
        next quiet => exact old (Bool.eq_false_iff.mpr quiet) x y shown
      simp only [if_true, List.foldl_cons, List.foldl_nil, Seen.note, pieces, redraw]
      refine ⟨fullscreen, fun _ => flagged.shown w, fun _ x y shown => ?_, covers⟩
      rw [flagged.shown] at shown
      exact covers x y shown
    | false =>
      obtain ⟨quiet, quiet'⟩ := Bool.or_eq_false_iff.mp send
      simp only [Bool.false_eq_true, if_false, List.foldl_nil]
      refine ⟨fullscreen, fun _ => ?_, fun _ x y shown => ?_, known.within⟩
      · rw [flagged.shown]
        exact known.sent quiet
      · rw [flagged.shown] at shown
        exact old quiet' x y shown
  · have redraw' : redraws how s w = true := by
      cases quiet : redraws how s w with
      | true => rfl
      | false =>
        rw [old quiet x y shown] at lost
        cases lost
    exact ⟨_, sent (by rw [sends, redraw', Bool.or_true]), redraw.trans redraw', pieces⟩
  · have changed : (s.win w).newpieces = true := by
      cases quiet : (s.win w).newpieces with
      | true => rfl
      | false => exact absurd (known.sent quiet) other
    exact ⟨_, sent (by rw [sends, changed, Bool.true_or]), pieces⟩

/-- A repaint clears the background or sends it its pieces to redraw, where it shows a pixel
    that it has not been told of. -/
theorem KnownBackground.redraws (how : Bool) (known : KnownBackground s seen) {x y : Int}
    (shown : covered (s.shown s.backgroundw) x y = true)
    (untold : covered seen.told x y = false) :
    Event.clear (s.shown s.backgroundw) ∈ backgroundOutcome how s ∨
      ∃ m, Event.setpieces s.backgroundw m ∈ backgroundOutcome how s ∧ m.doredraw = true ∧
        m.pieces = s.shown s.backgroundw := by
  obtain ⟨pieces, redraw⟩ := setpiece_pieces known.fullscreen
    (how || (s.win s.backgroundw).redisplay)
  simp only [backgroundOutcome]
  cases marked : (how || (s.win s.backgroundw).redisplay) with
  | true =>
    rw [marked] at pieces redraw
    by_cases client : (s.win s.backgroundw).inchan = -1
    · simp only [client, Bool.true_or, if_true, List.mem_singleton]
      exact .inl trivial
    · simp only [if_neg client, Bool.true_or, if_true, List.mem_singleton]
      exact .inr ⟨_, rfl, redraw, pieces⟩
  | false =>
    rw [known.told (Bool.or_eq_false_iff.mp marked).2 x y shown] at untold
    cases untold

/-- A repaint sends the background its pieces if they are others than it was last sent. -/
theorem KnownBackground.tells (how : Bool) (known : KnownBackground s seen)
    (client : (s.win s.backgroundw).inchan ≠ -1)
    (other : s.shown s.backgroundw ≠ seen.sent) :
    ∃ m, Event.setpieces s.backgroundw m ∈ backgroundOutcome how s ∧
      m.pieces = s.shown s.backgroundw := by
  obtain ⟨pieces, -⟩ := setpiece_pieces known.fullscreen
    (how || (s.win s.backgroundw).redisplay)
  have new : (s.win s.backgroundw).newpieces = true := by
    by_contra old
    exact other (known.sent (Bool.eq_false_iff.mpr old) client)
  simp only [backgroundOutcome, new, if_neg client, Bool.or_true, if_true, List.mem_singleton]
  exact ⟨_, rfl, pieces⟩

/-- What the background has been told, after a repaint. -/
theorem KnownBackground.note {how : Bool} (known : KnownBackground s seen)
    (flagged : Flagged s s') :
    KnownBackground s' ((backgroundOutcome how s).foldl Seen.note seen) := by
  have same : s'.backgroundw = s.backgroundw := by rw [flagged.rest]
  have fullscreen : (s'.win s'.backgroundw).fullscreen = false := by
    rw [same, flagged.win]
    exact known.fullscreen
  have inchan : (s'.win s'.backgroundw).inchan = (s.win s.backgroundw).inchan := by
    rw [same, flagged.win]
  have still : s'.shown s'.backgroundw = s.shown s.backgroundw := by rw [same, flagged.shown]
  obtain ⟨pieces, redraw⟩ := setpiece_pieces known.fullscreen
    (how || (s.win s.backgroundw).redisplay)
  refine ⟨fullscreen, fun _ client => ?_, fun _ x y shown => ?_⟩
  · rw [inchan] at client
    rw [still]
    simp only [backgroundOutcome, if_neg client]
    split
    · simp only [List.foldl_cons, List.foldl_nil, Seen.note, pieces]
    · next quiet =>
        rw [Bool.not_eq_true, Bool.or_eq_false_iff] at quiet
        exact known.sent quiet.2 client
  · rw [still] at shown
    simp only [backgroundOutcome]
    cases marked : (how || (s.win s.backgroundw).redisplay) with
    | true =>
      rw [marked] at pieces redraw
      simp only [Bool.true_or, if_true]
      split
      · exact shown
      · simpa only [List.foldl_cons, List.foldl_nil, Seen.note, redraw, if_true, pieces] using shown
    | false =>
      rw [marked] at redraw
      have kept := known.told (Bool.or_eq_false_iff.mp marked).2 x y shown
      split
      · split
        · exact kept
        · simpa only [List.foldl_cons, List.foldl_nil, Seen.note, redraw, Bool.false_eq_true,
            if_false] using kept
      · exact kept

/-- The background window at a repaint. -/
theorem KnownBackground.repaint {how : Bool} {events : List Event}
    (known : KnownBackground s seen) (flagged : Flagged s s')
    (told : events.filter (Event.concerns s.backgroundw s.backgroundw) =
      backgroundOutcome how s) :
    KnownBackground s'
        ((events.filter (Event.concerns s.backgroundw s.backgroundw)).foldl Seen.note seen) ∧
      (∀ x y, covered (s.shown s.backgroundw) x y = true → covered seen.told x y = false →
        Event.clear (s.shown s.backgroundw) ∈ events ∨
          ∃ m, Event.setpieces s.backgroundw m ∈ events ∧ m.doredraw = true ∧
            m.pieces = s.shown s.backgroundw) ∧
      ((s.win s.backgroundw).inchan ≠ -1 → s.shown s.backgroundw ≠ seen.sent →
        ∃ m, Event.setpieces s.backgroundw m ∈ events ∧ m.pieces = s.shown s.backgroundw) := by
  have listed : ∀ event ∈ backgroundOutcome how s, event ∈ events := by
    intro event there
    rw [← told] at there
    exact (List.mem_filter.mp there).1
  rw [told]
  refine ⟨known.note flagged, fun x y shown untold => ?_, fun client other => ?_⟩
  · rcases known.redraws how shown untold with there | ⟨m, there, sent⟩
    · exact .inl (listed _ there)
    · exact .inr ⟨m, listed _ there, sent⟩
  · obtain ⟨m, there, pieces⟩ := known.tells how client other
    exact ⟨m, listed _ there, pieces⟩

end

/-! ## Runs -/

/-- The invariant of the runs. -/
structure Sound (world : World) : Prop where
  stacked : Stacked world.s (world.pairs.order world.s.backgroundw)
  known : ∀ w ∈ world.pairs.windows, Known world.s (world.ledger w) w
  background : KnownBackground world.s (world.ledger world.s.backgroundw)

theorem Faithful.fits_pairs {how : Bool} {world : World} (faithful : Faithful how world) :
    ∀ p ∈ world.pairs.front ++ world.pairs.behind, Fits world.s p.1 := fun p listed =>
  faithful.fits p.1 (List.mem_map.mpr ⟨p, listed, rfl⟩)

/-- A repaint tells every window what it has to know. -/
theorem Sound.repaint {world : World} {how : Bool} (sound : Sound world)
    (faithful : Faithful how world) :
    ∃ s events, wnRepaint how world.s = some (s, events) ∧ Complete world events ∧
      Sound (world.note s events) := by
  obtain ⟨s, events, eq, told⟩ : ∃ s events, wnRepaint how world.s = some (s, events) ∧
      Told how world.pairs world.s s events :=
    wnRepaint_spec sound.stacked faithful.fits_pairs faithful.client
  have same : s.backgroundw = world.s.backgroundw := by rw [told.flagged.rest]
  have windows := fun w (listed : w ∈ world.pairs.windows) =>
    (sound.known w listed).repaint told.flagged (faithful.check w listed) (told.windows w listed)
  have background := sound.background.repaint told.flagged told.background
  refine ⟨s, events, eq, ?_, ?_⟩
  · exact ⟨fun w listed => (windows w listed).2.1, fun w listed => (windows w listed).2.2,
      background.2.1, background.2.2⟩
  · constructor
    case stacked =>
      have stacked := told.flagged.stacked sound.stacked
      rwa [← same] at stacked
    case known => exact fun w listed => (windows w listed).1
    case background =>
      show KnownBackground s (noteAll world.s.backgroundw world.ledger events s.backgroundw)
      rw [same]
      exact background.1

theorem mem_order_of_windows {pairs : Pairs} {background w : WinId} (listed : w ∈ pairs.windows) :
    w ∈ pairs.order background := by
  obtain ⟨p, there, rfl⟩ := List.mem_map.mp listed
  rw [Pairs.order, List.mem_append, List.mem_cons]
  rcases List.mem_append.mp there with front | behind
  · exact .inl (mem_unpair front)
  · exact .inr (.inr (mem_unpair behind))

/-- After an operation the windows are the ones before, but for one it created. -/
theorem mem_move_windows {s : State} {pairs : Pairs} {op : WnOp} {w : WinId}
    (listed : w ∈ (pairs.move s op).windows) :
    w ∈ pairs.windows ∨ op.creates = true ∧ w = (wnNewwin s).1 := by
  cases op with
  | newwin =>
    simp only [Pairs.windows, Pairs.move, List.map_append, List.mem_append, List.map_cons,
      List.map_nil, List.mem_singleton] at listed ⊢
    rcases listed with front | behind | new
    · exact .inl (.inl front)
    · exact .inl (.inr behind)
    · exact .inr ⟨rfl, new⟩
  | initconsole r =>
    simp only [Pairs.windows, Pairs.move, List.map_append, List.mem_append, List.map_cons,
      List.mem_cons] at listed ⊢
    rcases listed with (new | front) | behind
    · exact .inr ⟨rfl, new⟩
    · exact .inl (.inl front)
    · exact .inl (.inr behind)
  | resize w r => exact .inl listed
  | destroy w kill =>
    rw [Pairs.move] at listed
    split at listed
    next => exact .inl listed
    next =>
      obtain ⟨p, there, rfl⟩ := List.mem_map.mp listed
      refine .inl (List.mem_map.mpr ⟨p, ?_, rfl⟩)
      simp only [others, List.mem_append, List.mem_filter] at there ⊢
      grind
  | pop w | push w | derez w =>
    obtain ⟨p, there, rfl⟩ := List.mem_map.mp listed
    refine .inl (List.mem_map.mpr ⟨p, ?_, rfl⟩)
    simp only [Pairs.move, pick, others, List.mem_append, List.mem_filter] at there ⊢
    grind

/-- What an operation leaves of what the clients know. -/
structure Acted (world world' : World) : Prop where
  stacked : Stacked world'.s (world'.pairs.order world'.s.backgroundw)
  known : ∀ w ∈ world'.pairs.windows, Known world'.s (world'.ledger w) w
  background : world'.s.backgroundw = world.s.backgroundw
  ledger : world'.ledger world.s.backgroundw = world.ledger world.s.backgroundw
  noted : Noted [world.s.backgroundw] world.s world'.s

theorem act_op {world : World} {op : WnOp}
    (stacked : Stacked world.s (world.pairs.order world.s.backgroundw))
    (known : ∀ w ∈ world.pairs.windows, Known world.s (world.ledger w) w)
    (asked : Asked world.s world.pairs op) (spares : Spares world.s op) :
    ∃ world', act world (.op op) = some world' ∧ Acted world world' := by
  obtain ⟨s, performed⟩ := wnPerform_spec stacked asked spares
  have stacked' : Stacked s ((world.pairs.move world.s op).order s.backgroundw) :=
    performed.background ▸ performed.stacked
  have back : world.s.backgroundw ∈ (world.pairs.move world.s op).order world.s.backgroundw :=
    List.mem_append_right _ (List.mem_cons_self ..)
  have old : ∀ w ∈ world.pairs.order world.s.backgroundw,
      (if op.creates then update world.ledger (wnNewwin world.s).1 {} else world.ledger) w =
        world.ledger w := by
    intro w listed
    split
    next new =>
      have other : w ≠ (wnNewwin world.s).1 := ne_of_mem_of_not_mem listed (performed.unseen new).2
      exact update_of_ne other ..
    next => rfl
  refine ⟨_, by rw [act, performed.eq]; rfl, ?_⟩
  constructor
  case stacked => exact stacked'
  case background => exact performed.background
  case ledger => exact old _ stacked.background
  case known =>
    intro w listed
    rcases mem_move_windows listed with before | ⟨new, rfl⟩
    · have there : w ∈ world.pairs.order world.s.backgroundw := mem_order_of_windows before
      have kept := performed.noted [w] fun v here => by
        rw [List.mem_singleton.mp here]
        exact ⟨there, mem_order_of_windows listed⟩
      simp only [old w there]
      exact (known w before).noted (List.mem_singleton_self w) kept
    · simp only [new, if_true, update_self]
      exact (performed.unseen new).1.known
  case noted =>
    exact performed.noted [world.s.backgroundw] fun v here => by
      rw [List.mem_singleton.mp here]
      exact ⟨stacked.background, back⟩

theorem Sound.op {world : World} {op : WnOp} (sound : Sound world)
    (asked : Asked world.s world.pairs op) (spares : Spares world.s op) :
    ∃ world', act world (.op op) = some world' ∧ Sound world' := by
  obtain ⟨world', eq, acted⟩ := act_op sound.stacked sound.known asked spares
  refine ⟨world', eq, acted.stacked, acted.known, ?_⟩
  rw [acted.background, acted.ledger]
  exact sound.background.noted (List.mem_singleton_self _) acted.background acted.noted

theorem ne_background {s : State} {pairs : Pairs} {background w : WinId}
    (stacked : Stacked s (pairs.order background)) (listed : w ∈ pairs.windows) :
    w ≠ background := by
  have nodup := stacked.chain.nodup
  rintro rfl
  obtain ⟨p, there, same⟩ := List.mem_map.mp listed
  simp only [Pairs.order] at nodup
  rcases List.mem_append.mp there with front | behind
  · have := mem_unpair front
    grind
  · have := mem_unpair behind
    grind

/-- A client which registers as the background is sent the pieces and redraws. -/
theorem Sound.makebackground {world : World} (sound : Sound world) (icnum gfnum : Int)
    (fits : Fits world.s world.s.backgroundw) :
    ∃ world', act world (.makebackground icnum gfnum) = some world' ∧ Sound world' := by
  let b := world.s.backgroundw
  let s := world.s.modify b fun win => { win with inchan := icnum, gfnum := gfnum }
  have first : Stacked s (world.pairs.order b) :=
    sound.stacked.modify_ports (fun _ => rfl) (fun _ => rfl) (fun _ => rfl) fun _ => rfl
  have here : s.win b = { world.s.win b with inchan := icnum, gfnum := gfnum } := modify_win_self
  have fits' : Fits s b := by
    rw [Fits, here]
    exact fits
  have flagged : Flagged s (s.modify b fun win => { win with shadow := piececheck s b }) :=
    .of_modify rfl
  have sent : Mex.makebackground icnum gfnum world.s = some (s.modify b fun win =>
      { win with shadow := piececheck s b }, [.setpieces b (setpiece s b true)]) :=
    wnSetpieces_eq fits' true
  refine ⟨_, by rw [act, sent]; rfl, ?_⟩
  have other : ∀ w ∈ world.pairs.windows, w ≠ b := fun w => ne_background sound.stacked
  constructor
  case stacked => exact flagged.stacked first
  case known =>
    intro w listed
    have away := other w listed
    have win : (s.modify b fun win => { win with shadow := piececheck s b }).win w =
        world.s.win w := by
      rw [modify_win_other away, modify_win_other away]
    have quiet : noteAll b world.ledger [.setpieces b (setpiece s b true)] w = world.ledger w := by
      simp [noteAll, Event.concerns, Ne.symm away]
    have known := sound.known w listed
    have shown : (s.modify b fun win => { win with shadow := piececheck s b }).shown w =
        world.s.shown w := by
      rw [State.shown, win]
      rfl
    show Known _ (noteAll b world.ledger _ w) w
    rw [quiet]
    exact ⟨win ▸ known.fullscreen, shown ▸ win ▸ known.sent, shown ▸ win ▸ known.told, known.within⟩
  case background =>
    have plain : (s.win b).fullscreen = false := by
      rw [here]
      exact sound.background.fullscreen
    obtain ⟨pieces, redraw⟩ := setpiece_pieces plain true
    have told : noteAll b world.ledger [.setpieces b (setpiece s b true)] b =
        { sent := s.shown b, told := s.shown b } := by
      simp [noteAll, Event.concerns, Seen.note, pieces, redraw]
    have shown := flagged.shown b
    show KnownBackground _ (noteAll b world.ledger _ b)
    rw [told]
    refine ⟨?_, fun _ _ => shown, fun _ x y there => ?_⟩
    · have win := flagged.win b
      exact (congrArg Window.fullscreen win).trans plain
    · rw [← shown]
      exact there

/-- Windows are not told when the background is cleared. -/
theorem Known.note {world : World} {s : State} {events : List Event} {w : WinId}
    (known : Known world.s (world.ledger w) w) (flagged : Flagged world.s s)
    (win : s.win w = world.s.win w)
    (quiet : events.filter (Event.concerns world.s.backgroundw w) = []) :
    Known s ((world.note s events).ledger w) w := by
  have same : (world.note s events).ledger w = world.ledger w := by
    simp only [World.note, noteAll, quiet, List.foldl_nil]
  have shown := flagged.shown w
  rw [same]
  exact ⟨win ▸ known.fullscreen, shown ▸ win ▸ known.sent, shown ▸ win ▸ known.told, known.within⟩

theorem startWorld_sound (font : Font) (console : Rect) :
    ∃ world, startWorld font console = some world ∧ Sound world := by
  have client : ((wmInit font).win (wmInit font).backgroundw).inchan = -1 := by
    simp [wmInit, Lib.Pool.alloc]
  have plain : ((wmInit font).win (wmInit font).backgroundw).fullscreen = false := by
    simp [wmInit, Lib.Pool.alloc]
  have bare : ∀ w ∈ (initWorld font).pairs.windows,
      Known (initWorld font).s ((initWorld font).ledger w) w := fun w listed => by cases listed
  obtain ⟨world, created, acted⟩ : ∃ world,
      act (initWorld font) (.op (.initconsole console)) = some world ∧
        Acted (initWorld font) world :=
    act_op (wmInit_stacked font) bare (fun w none => by cases none) fun none => by cases none
  have listed := List.mem_singleton_self (initWorld font).s.backgroundw
  have client : (world.s.win world.s.backgroundw).inchan = -1 := by
    rw [acted.background]
    exact not_not.mp fun other => acted.noted.inchan _ listed other client
  have plain : (world.s.win world.s.backgroundw).fullscreen = false := by
    rw [acted.background]
    exact (acted.noted.fullscreen _ listed).trans plain
  obtain ⟨s, events, eq, flagged, others, sent⟩ := background_spec (s := world.s) true
    fun other => absurd client other
  rw [if_pos client] at sent
  simp only [if_true] at sent
  have same : s.backgroundw = world.s.backgroundw := by rw [flagged.rest]
  have started : startWorld font console = some (world.note s events) := by
    simp only [startWorld, created, eq, Option.bind_eq_bind, Option.bind_some]
  refine ⟨world.note s events, started, ?_⟩
  constructor
  case stacked =>
    have stacked := flagged.stacked acted.stacked
    show Stacked s (world.pairs.order s.backgroundw)
    rwa [same]
  case known =>
    intro w listed
    have away : w ≠ world.s.backgroundw := ne_background acted.stacked listed
    refine (acted.known w listed).note flagged (others w away) ?_
    rw [sent]
    simp [Event.concerns, away]
  case background =>
    show KnownBackground s ((world.note s events).ledger s.backgroundw)
    have win := flagged.win world.s.backgroundw
    have told : (world.note s events).ledger world.s.backgroundw =
        { world.ledger world.s.backgroundw with told := world.s.shown world.s.backgroundw } := by
      simp [World.note, noteAll, sent, Event.concerns, Seen.note]
    rw [same, told]
    constructor
    case fullscreen =>
      rw [same, win]
      exact plain
    case sent =>
      rw [same, win]
      exact fun _ other => absurd client other
    case told =>
      rw [same, flagged.shown]
      exact fun _ x y shown => shown

theorem Sound.act {world world' : World} {a : Act} (sound : Sound world)
    (asked : AskedAct world a) (trusted : Trusted world a) (eq : act world a = some world') :
    Sound world' := by
  cases a with
  | op op =>
    obtain ⟨after, eq', sound'⟩ := sound.op asked trusted
    rw [eq] at eq'
    cases eq'
    exact sound'
  | makebackground icnum gfnum =>
    obtain ⟨after, eq', sound'⟩ := sound.makebackground icnum gfnum trusted
    rw [eq] at eq'
    cases eq'
    exact sound'
  | repaint how =>
    obtain ⟨s, events, eq', -, sound'⟩ := sound.repaint trusted
    simp only [Mex.act, eq', Option.bind_eq_bind, Option.bind_some, Option.some.injEq] at eq
    exact eq ▸ sound'

theorem Painted.sound {font : Font} {console : Rect} {world : World}
    (painted : Painted font console Trusted world) : Sound world := by
  induction painted with
  | start eq =>
    obtain ⟨world, eq', sound⟩ := startWorld_sound font console
    cases eq.symm.trans eq'
    exact sound
  | step _ asked trusted eq ih => exact ih.act asked trusted eq

/-- Run some acts while they pass a check. -/
def replay (good : World → Act → Bool) : List Act → World → Option World
  | [], world => some world
  | a :: acts, world => if good world a then (act world a).bind (replay good acts) else none

theorem Painted.replay {font : Font} {console : Rect} {ok : World → Act → Prop}
    {good : World → Act → Bool}
    (met : ∀ world a, good world a = true → AskedAct world a ∧ ok world a) {acts : List Act}
    {world world' : World} (painted : Painted font console ok world)
    (eq : replay good acts world = some world') : Painted font console ok world' := by
  induction acts generalizing world with
  | nil =>
    cases eq
    exact painted
  | cons a acts ih =>
    rw [Mex.replay] at eq
    split at eq
    next pass =>
      obtain ⟨after, step, rest⟩ := Option.bind_eq_some_iff.mp eq
      obtain ⟨asked, here⟩ := met world a pass
      exact ih (painted.step asked here step) rest
    next => cases eq

def asks (world : World) : Act → Bool
  | .op op => match op.window with
    | none => true
    | some w => decide (w ∈ world.pairs.windows)
  | _ => true

theorem AskedAct.of_asks {world : World} {a : Act} (asks : asks world a = true) :
    AskedAct world a := by
  cases a with
  | op op =>
    intro w window
    simp only [Mex.asks, window, decide_eq_true_eq] at asks
    exact .inr asks
  | makebackground icnum gfnum => trivial
  | repaint how => trivial

instance (s : State) (w : WinId) : Decidable (Fits s w) :=
  inferInstanceAs (Decidable ((s.win w).ys.length ≤ maxpieces))

instance (how : Bool) (world : World) : Decidable (Faithful how world) :=
  decidable_of_iff
    ((∀ w ∈ world.pairs.windows, (how || (world.s.win w).redisplay) = true →
        (if how then 0 else (world.s.win w).shadow) = piececheck world.s w →
        world.s.shown w = (world.ledger w).sent) ∧
      (∀ w ∈ world.pairs.windows, Fits world.s w) ∧
      ((world.s.win world.s.backgroundw).inchan ≠ -1 → Fits world.s world.s.backgroundw))
    ⟨fun faithful => ⟨faithful.1, faithful.2.1, faithful.2.2⟩,
      fun faithful => ⟨faithful.check, faithful.fits, faithful.client⟩⟩

/-- A check of `Trusted` which asks nothing of the background window. -/
def trusts (world : World) (a : Act) : Bool :=
  asks world a && match a with
    | .op op => decide (op.window ≠ some world.s.backgroundw)
    | .makebackground _ _ => decide (Fits world.s world.s.backgroundw)
    | .repaint how => decide (Faithful how world)

theorem AskedAct.of_trusts {world : World} {a : Act} (trusts : trusts world a = true) :
    AskedAct world a ∧ Trusted world a := by
  obtain ⟨asks, here⟩ := (Bool.and_eq_true ..).mp trusts
  refine ⟨.of_asks asks, ?_⟩
  cases a with
  | op op => exact fun same => absurd same (of_decide_eq_true here)
  | makebackground icnum gfnum =>
    show Fits world.s world.s.backgroundw
    exact of_decide_eq_true here
  | repaint how =>
    show Faithful how world
    exact of_decide_eq_true here

/-- In every run in which no checksum is mistaken, no repaint is lost. -/
theorem no_lost_repaint (font : Font) (console : Rect) (world : World)
    (painted : Painted font console Trusted world) (how : Bool) (faithful : Faithful how world) :
    ∃ s events, wnRepaint how world.s = some (s, events) ∧ Complete world events := by
  obtain ⟨s, events, eq, complete, -⟩ := painted.sound.repaint faithful
  exact ⟨s, events, eq, complete⟩

/-- The second window is first shown partly behind the other, and then popped. -/
def uncovers : List Act :=
  [.op .newwin, .op (.resize 3 ⟨100, 300, 100, 300⟩), .op (.pop 3), .repaint false,
    .op .newwin, .op (.resize 5 ⟨200, 400, 200, 400⟩), .op (.pop 5), .op (.pop 3),
    .repaint false, .op (.pop 5)]

/-- The second window shows a pixel it was not told of, and the first one lost it. -/
def uncovered (world : World) : Bool :=
  decide (Faithful false world) && decide (5 ∈ world.pairs.windows) &&
    covered (world.s.shown 5) 250 250 && !covered (world.ledger 5).told 250 250 &&
    decide (world.s.shown 3 ≠ (world.ledger 3).sent)

theorem no_lost_repaint_uncovers : ∃ world s events m,
    (startWorld ⟨9, 16, 18⟩ ⟨400, 900, 400, 700⟩).bind (replay trusts uncovers) = some world ∧
      covered (world.s.shown 5) 250 250 = true ∧
      covered (world.ledger 5).told 250 250 = false ∧
      world.s.shown 3 ≠ (world.ledger 3).sent ∧
      wnRepaint false world.s = some (s, events) ∧ Complete world events ∧
      Event.setpieces 5 m ∈ events ∧ m.doredraw = true := by
  have run : ((startWorld ⟨9, 16, 18⟩ ⟨400, 900, 400, 700⟩).bind (replay trusts uncovers)).any
      uncovered = true := by
    decide +kernel
  obtain ⟨world, eq, facts⟩ := (Option.any_eq_true ..).mp run
  simp only [uncovered, Bool.and_eq_true, decide_eq_true_eq, Bool.not_eq_true'] at facts
  obtain ⟨⟨⟨⟨faithful, listed⟩, shown⟩, lost⟩, other⟩ := facts
  obtain ⟨start, first, rest⟩ := Option.bind_eq_some_iff.mp eq
  have painted : Painted ⟨9, 16, 18⟩ ⟨400, 900, 400, 700⟩ Trusted world :=
    (Painted.start first).replay (fun _ _ pass => AskedAct.of_trusts pass) rest
  obtain ⟨s, events, eq', complete⟩ := no_lost_repaint _ _ _ painted false faithful
  obtain ⟨m, sent, redraw, -⟩ := complete.redrawn 5 listed 250 250 shown lost
  exact ⟨world, s, events, m, eq, shown, lost, other, eq', complete, sent, redraw⟩

/-- A window is made, given a place and shown, and then moved by a pixel to the
    right and two up. -/
def moves : List Act :=
  [.op .newwin, .repaint false, .op (.resize 3 ⟨100, 300, 100, 300⟩), .repaint false,
    .op (.pop 3), .repaint false, .op (.resize 3 ⟨101, 301, 102, 302⟩)]

/-- The pixel in the upper right corner is new and the window is not told to redraw. -/
def losesCorner (world : World) : Bool :=
  match wnRepaint false world.s with
  | none => false
  | some (_, events) =>
    decide (3 ∈ world.pairs.windows) && covered (world.s.shown 3) 301 302 &&
      !covered (world.ledger 3).told 301 302 && events.all fun
        | .setpieces w m => decide (w ≠ 3) || !m.doredraw
        | _ => true

/-- The checksum of the moved window is the one it had. -/
theorem moved_window_not_redrawn : ∃ world,
    Painted ⟨9, 16, 18⟩ ⟨400, 900, 400, 700⟩ (fun _ _ => True) world ∧
    ∃ s events, wnRepaint false world.s = some (s, events) ∧ ¬ Complete world events := by
  have run : ((startWorld ⟨9, 16, 18⟩ ⟨400, 900, 400, 700⟩).bind (replay asks moves)).any
      losesCorner = true := by
    decide +kernel
  obtain ⟨world, eq, loses⟩ := (Option.any_eq_true ..).mp run
  obtain ⟨start, first, rest⟩ := Option.bind_eq_some_iff.mp eq
  have painted : Painted ⟨9, 16, 18⟩ ⟨400, 900, 400, 700⟩ (fun _ _ => True) world :=
    (Painted.start first).replay (fun _ _ pass => ⟨.of_asks pass, trivial⟩) rest
  rw [losesCorner] at loses
  split at loses
  next => cases loses
  next s events repaint =>
    simp only [Bool.and_eq_true, decide_eq_true_eq, Bool.not_eq_true', List.all_eq_true] at loses
    obtain ⟨⟨⟨listed, shown⟩, lost⟩, quiet⟩ := loses
    refine ⟨world, painted, s, events, repaint, fun complete => ?_⟩
    obtain ⟨m, sent, redraw, -⟩ := complete.redrawn 3 listed 301 302 shown lost
    have := quiet _ sent
    simp [redraw] at this

end Irix.Mex
