import Irix.Mex.Pairs

/-! # Repainting

After a change of the stack the window manager tells the windows about their new
pieces, and to redraw where they show more than they did.  A redraw is left out
where a checksum of the pieces is the one of the pieces sent before.
-/

namespace Irix.Mex

open Function
open Lib (Rect)
open Lib.Linked

def maxpieces : Nat := 500

/-- One turn of the checksum: exclusive or, then a rotation by one bit. -/
def hashit (x : Int) (check : BitVec 32) : BitVec 32 :=
  let check := check ^^^ BitVec.ofInt 32 x
  if check.toInt < 0 then (check <<< 1) + 1 else check <<< 1

def hashRect (check : BitVec 32) (r : Rect) : BitVec 32 :=
  hashit r.ymax (hashit r.xmax (hashit r.ymin (hashit r.xmin check)))

/-- The pieces of the window in the order of its list. -/
def State.shown (s : State) (w : WinId) : List Rect := (s.win w).ys.map s.piece

def piececheck (s : State) (w : WinId) : BitVec 32 :=
  (s.shown w).foldl hashRect (hashRect 0 (s.win w).rect)

/-- What `wn_setpieces` tells the system. -/
structure Setpiece where
  /-- `gr_type` is `TXPORT`. -/
  txport : Bool
  no : Int
  port : Rect
  pieces : List Rect
  ncols : Int
  nrows : Int
  doredraw : Bool
  deriving DecidableEq, Repr

inductive Event where
  /-- The background is cleared by the window manager, inside these pieces. -/
  | clear (pieces : List Rect)
  /-- The border of the window is drawn. -/
  | border (w : WinId)
  | setpieces (w : WinId) (m : Setpiece)
  deriving DecidableEq, Repr

def setpiece (s : State) (w : WinId) (doredraw : Bool) : Setpiece :=
  let win := s.win w
  if win.fullscreen then
    { txport := false, no := win.gfnum, port := screen, pieces := [screen], ncols := win.ncols,
      nrows := win.nrows, doredraw := doredraw }
  else if win.textport then
    { txport := true, no := win.txport
      port := ⟨toShort (win.rect.xmin - 2), toShort (win.rect.xmax + 2),
        toShort (win.rect.ymin - 2), toShort (win.rect.ymax + 2)⟩
      pieces := s.shown w, ncols := win.ncols, nrows := win.nrows, doredraw := doredraw }
  else
    { txport := false, no := win.gfnum, port := win.rect, pieces := s.shown w,
      ncols := win.ncols, nrows := win.nrows, doredraw := doredraw }

/-- More pieces than the buffer holds are written past its end. -/
def wnSetpieces (w : WinId) (doredraw : Bool) (s : State) : Option (State × List Event) :=
  if (setpiece s w doredraw).pieces.length ≤ maxpieces then
    some (s.modify w fun win => { win with shadow := piececheck s w },
      [.setpieces w (setpiece s w doredraw)])
  else none

/-- Clear the two flags of a window. -/
def clearFlags (w : WinId) (s : State) : State :=
  s.modify w fun win => { win with redisplay := false, newpieces := false }

def background (redraw : Bool) (s : State) : Option (State × List Event) := do
  let w := s.backgroundw
  let (s, events) ←
    if (s.win w).inchan = -1 then some (s, if redraw then [.clear (s.shown w)] else [])
    else wnSetpieces w redraw s
  some (clearFlags w s, events)

def wnRedraw (w : WinId) (s : State) : Option (State × List Event) :=
  match wmInback s (some w) with
  | none => none
  | some bw => do
    let drawn := (s.win bw).redisplay
    let s := if drawn then s.modify bw fun win => { win with redisplay := false } else s
    let borders := if drawn then [Event.border w] else []
    let doredraw := (s.win w).redisplay && decide ((s.win w).shadow ≠ piececheck s w)
    if (s.win w).newpieces || doredraw then
      let (s, sent) ← wnSetpieces w doredraw s
      some (clearFlags w s, borders ++ sent)
    else some (s, borders)

/-- The flags `wn_repaint` sets when it is to repaint all. -/
def markAll (w : WinId) (s : State) : State :=
  let s := s.modify w fun win => { win with redisplay := true, shadow := 0 }
  match wmInback s (some w) with
  | none => s
  | some bw => s.modify bw fun win => { win with redisplay := true }

/-- One turn of the loop of `wn_repaint`. -/
def repaintOne (how : Bool) (w : WinId) (s : State) : Option (State × List Event) :=
  let s := if how then markAll w s else s
  if (s.win w).dummy then
    if (s.win w).redisplay then background true s
    else if (s.win w).newpieces then background false s
    else some (s, [])
  else wnRedraw w s

def repaintFrom (how : Bool) : Nat → Option WinId → State → Option (State × List Event)
  | _, none, s => some (s, [])
  | 0, some _, _ => none
  | fuel + 1, some w, s => do
    let (s, events) ← repaintOne how w s
    let (s, later) ← repaintFrom how fuel (wnInback s w) s
    some (s, events ++ later)

def wnRepaint (how : Bool) (s : State) : Option (State × List Event) :=
  repaintFrom how s.windows s.list.first s

/-- A client becomes the background. -/
def makebackground (icnum gfnum : Int) (s : State) : Option (State × List Event) :=
  wnSetpieces s.backgroundw true <|
    s.modify s.backgroundw fun win => { win with inchan := icnum, gfnum := gfnum }

/-! ## Only flags are written -/

/-- The states differ in the flags and shadows of windows alone. -/
structure Flagged (s s' : State) : Prop where
  rest : s' = { s with win := s'.win }
  win : ∀ w, s'.win w =
    { s.win w with
      redisplay := (s'.win w).redisplay, newpieces := (s'.win w).newpieces,
      shadow := (s'.win w).shadow }

namespace Flagged

variable {s s' s'' : State} {w : WinId}

theorem refl (s : State) : Flagged s s := ⟨rfl, fun _ => rfl⟩

theorem trans (left : Flagged s s') (right : Flagged s' s'') : Flagged s s'' := by
  constructor
  case rest =>
    have first := left.rest
    have second := right.rest
    rw [second, first]
  case win =>
    intro w
    rw [right.win w, left.win w]

theorem of_modify {f : Window → Window}
    (same : f (s.win w) =
      { s.win w with
        redisplay := (f (s.win w)).redisplay, newpieces := (f (s.win w)).newpieces,
        shadow := (f (s.win w)).shadow }) : Flagged s (s.modify w f) := by
  refine ⟨rfl, fun v => ?_⟩
  by_cases here : v = w
  · rw [here, modify_win_self]
    exact same
  · rw [modify_win_other here]

theorem shown (flagged : Flagged s s') (w : WinId) : s'.shown w = s.shown w := by
  rw [State.shown, flagged.win w, flagged.rest]
  rfl

theorem piececheck (flagged : Flagged s s') (w : WinId) : piececheck s' w = piececheck s w := by
  rw [Mex.piececheck, flagged.shown, flagged.win w]
  rfl

theorem setpiece (flagged : Flagged s s') (w : WinId) (doredraw : Bool) :
    setpiece s' w doredraw = setpiece s w doredraw := by
  simp only [Mex.setpiece, flagged.shown]
  rw [flagged.win w]

theorem wmInback (flagged : Flagged s s') (w : Option WinId) : wmInback s' w = wmInback s w := by
  rw [flagged.rest]
  rfl

theorem dummy (flagged : Flagged s s') (w : WinId) : (s'.win w).dummy = (s.win w).dummy := by
  rw [flagged.win w]

theorem wnInback (flagged : Flagged s s') (w : WinId) : wnInback s' w = wnInback s w := by
  rw [Mex.wnInback, Mex.wnInback, flagged.dummy, flagged.wmInback, flagged.wmInback]

theorem stacked {order : List WinId} (flagged : Flagged s s') (stacked : Stacked s order) :
    Stacked s' order := by
  have win := flagged.win
  have rest := flagged.rest
  generalize s'.win = win' at win rest
  subst rest
  have ys : ∀ w, (win' w).ys = (s.win w).ys := fun w => by rw [win w]
  have xs : ∀ w, (win' w).xs = (s.win w).xs := fun w => by rw [win w]
  have rect : ∀ w, (win' w).rect = (s.win w).rect := fun w => by rw [win w]
  have dummy : ∀ w, (win' w).dummy = (s.win w).dummy := fun w => by rw [win w]
  constructor
  case chain => exact stacked.chain
  case wins => exact stacked.wins
  case taken => exact stacked.taken
  case background => exact stacked.background
  case bare => exact fun w away => (ys w).trans (stacked.bare w away)
  case backdrop => exact (rect _).trans stacked.backdrop
  case dummy => exact fun w listed => (dummy w).symm ▸ stacked.dummy w listed
  case tiles =>
    intro x y
    exact (stacked.tiles x y).congr fun w _ =>
      ⟨total_congr (.of_eq (ys w)) fun _ _ => rfl, rect w⟩
  case tidy =>
    constructor
    case sound => exact stacked.tidy.sound
    case perm => exact fun w => by simp only [xs, ys]; exact stacked.tidy.perm w
    case nodup => exact fun w => by simp only [ys]; exact stacked.tidy.nodup w
    case xSorted => exact fun w => by simp only [xs]; exact stacked.tidy.xSorted w
    case sorted => exact fun w => by simp only [ys]; exact stacked.tidy.sorted w
    case proper => exact fun w => by simp only [ys]; exact stacked.tidy.proper w
    case alone => exact fun w v => by simp only [ys]; exact stacked.tidy.alone w v
    case taken => exact fun w => by simp only [ys]; exact stacked.tidy.taken w

end Flagged

/-! ## One turn of the loop -/

/-- The window is told to redraw: it is marked and its checksum is a new one. -/
def redraws (how : Bool) (s : State) (w : WinId) : Bool :=
  (how || (s.win w).redisplay) &&
    decide ((if how then 0 else (s.win w).shadow) ≠ piececheck s w)

def sends (how : Bool) (s : State) (w : WinId) : Bool :=
  (s.win w).newpieces || redraws how s w

/-- What a window is sent. -/
def outcome (how : Bool) (s : State) (w : WinId) : List Event :=
  if sends how s w then [.setpieces w (setpiece s w (redraws how s w))] else []

/-- The event is about what the window knows of its pieces. -/
def Event.concerns (background w : WinId) : Event → Bool
  | .clear _ => decide (w = background)
  | .border _ => false
  | .setpieces v _ => decide (v = w)

structure Turned (how : Bool) (w b : WinId) (s s' : State) (events : List Event) : Prop where
  flagged : Flagged s s'
  others : ∀ v, v ≠ w → v ≠ b → s'.win v = s.win v
  events : ∀ background v, events.filter (Event.concerns background v) =
    if v = w then outcome how s w else []

section

variable {s s' : State} {w b v : WinId} {how : Bool}

/-- The buffer of `wn_setpieces` holds the pieces of the window. -/
def Fits (s : State) (w : WinId) : Prop := (s.win w).ys.length ≤ maxpieces

theorem wnSetpieces_eq (fits : Fits s w) (doredraw : Bool) :
    wnSetpieces w doredraw s =
      some (s.modify w fun win => { win with shadow := piececheck s w },
        [.setpieces w (setpiece s w doredraw)]) := by
  have short : (setpiece s w doredraw).pieces.length ≤ maxpieces := by
    rw [setpiece]
    split
    next => exact (by decide : [screen].length ≤ maxpieces)
    next =>
      split
      all_goals
        simp only [State.shown, List.length_map]
        exact fits
  rw [wnSetpieces, if_pos short]

theorem flagged_clearFlags : Flagged s (clearFlags w s) := .of_modify rfl

theorem wnRedraw_spec (back : wmInback s (some w) = some b) (other : b ≠ w) (fits : Fits s w) :
    ∃ s' events, wnRedraw w s = some (s', events) ∧ Turned false w b s s' events := by
  -- the border is drawn first
  have first : ∃ s₁, (if (s.win b).redisplay = true then
      s.modify b fun win => { win with redisplay := false } else s) = s₁ ∧ Flagged s s₁ ∧
      ∀ v, v ≠ b → s₁.win v = s.win v := by
    refine ⟨_, rfl, ?_⟩
    split
    next => exact ⟨.of_modify rfl, fun v away => modify_win_other away⟩
    next => exact ⟨.refl s, fun _ _ => rfl⟩
  obtain ⟨s₁, eq₁, flagged₁, same₁⟩ := first
  have here : s₁.win w = s.win w := same₁ w other.symm
  have check : piececheck s₁ w = piececheck s w := flagged₁.piececheck w
  have fits₁ : Fits s₁ w := by
    rw [Fits, here]
    exact fits
  have borders : ∀ background v, (if (s.win b).redisplay = true then [Event.border w] else []).filter
      (Event.concerns background v) = [] := by
    intro background v
    split <;> rfl
  have same : ((s.win w).newpieces || ((s.win w).redisplay &&
      decide ((s.win w).shadow ≠ piececheck s w))) = sends false s w := rfl
  have redraw : ((s.win w).redisplay && decide ((s.win w).shadow ≠ piececheck s w)) =
      redraws false s w := by
    simp [redraws]
  rw [wnRedraw, back]
  simp only [eq₁, here, check, redraw]
  cases send : sends false s w with
  | true =>
    have either : ((s.win w).newpieces || redraws false s w) = true := send
    rw [either]
    simp only [if_true, wnSetpieces_eq fits₁, Option.bind_eq_bind, Option.bind_some]
    refine ⟨_, _, rfl, ?_⟩
    have flagged₂ : Flagged s₁ (s₁.modify w fun win => { win with shadow := piececheck s₁ w }) :=
      .of_modify rfl
    constructor
    case flagged => exact flagged₁.trans (flagged₂.trans flagged_clearFlags)
    case others =>
      intro v away away'
      rw [clearFlags, modify_win_other away, modify_win_other away, same₁ v away']
    case events =>
      intro background v
      rw [List.filter_append, borders, List.nil_append, outcome, send, if_pos rfl,
        flagged₁.setpiece]
      by_cases same : v = w
      · rw [if_pos same, same]
        simp [Event.concerns]
      · rw [if_neg same]
        simp [Event.concerns, Ne.symm same]
  | false =>
    have neither : ((s.win w).newpieces || redraws false s w) = false := send
    rw [neither]
    simp only [Bool.false_eq_true, if_false]
    refine ⟨_, _, rfl, ?_⟩
    constructor
    case flagged => exact flagged₁
    case others => exact fun v _ away => same₁ v away
    case events =>
      intro background v
      rw [borders, outcome, send]
      split <;> rfl

theorem markAll_spec (back : wmInback s (some w) = some b) (other : b ≠ w) :
    Flagged s (markAll w s) ∧ (∀ v, v ≠ w → v ≠ b → (markAll w s).win v = s.win v) ∧
      ((markAll w s).win w).redisplay = true ∧ ((markAll w s).win w).shadow = 0 ∧
      ((markAll w s).win w).newpieces = (s.win w).newpieces := by
  have first : Flagged s (s.modify w fun win => { win with redisplay := true, shadow := 0 }) :=
    .of_modify rfl
  have result : markAll w s =
      (s.modify w fun win => { win with redisplay := true, shadow := 0 }).modify b
        fun win => { win with redisplay := true } := by
    rw [markAll]
    simp only [first.wmInback, back]
  rw [result]
  refine ⟨first.trans (.of_modify rfl), fun v away away' => ?_, ?_, ?_, ?_⟩
  · rw [modify_win_other away', modify_win_other away]
  all_goals rw [modify_win_other other.symm, modify_win_self]

/-- A window with a border in one turn. -/
theorem repaintOne_spec (back : wmInback s (some w) = some b) (other : b ≠ w)
    (plain : (s.win w).dummy = false) (fits : Fits s w) :
    ∃ s' events, repaintOne how w s = some (s', events) ∧ Turned how w b s s' events := by
  cases how with
  | false =>
    obtain ⟨s', events, eq, turned⟩ := wnRedraw_spec back other fits
    refine ⟨s', events, ?_, turned⟩
    simp only [repaintOne, Bool.false_eq_true, if_false, plain, eq]
  | true =>
    obtain ⟨flagged, away, redisplay, shadow, newpieces⟩ := markAll_spec back other
    have fits' : Fits (markAll w s) w := by
      rw [Fits, flagged.win w]
      exact fits
    obtain ⟨s', events, eq, turned⟩ := wnRedraw_spec
      (by rw [flagged.wmInback]; exact back) other fits'
    have redraw : redraws false (markAll w s) w = redraws true s w := by
      simp [redraws, redisplay, shadow, flagged.piececheck]
    have send : sends false (markAll w s) w = sends true s w := by
      rw [sends, sends, redraw, newpieces]
    refine ⟨s', events, ?_, ?_⟩
    · simp only [repaintOne, if_true, flagged.dummy, plain, Bool.false_eq_true, if_false, eq]
    · constructor
      case flagged => exact flagged.trans turned.flagged
      case others => exact fun v out out' => (turned.others v out out').trans (away v out out')
      case events =>
        intro background v
        rw [turned.events, outcome, outcome, send, redraw, flagged.setpiece]

end

/-! ## The whole loop -/

/-- What the background window is told. -/
def backgroundOutcome (how : Bool) (s : State) : List Event :=
  let win := s.win s.backgroundw
  let redraw := how || win.redisplay
  if redraw || win.newpieces then
    if win.inchan = -1 then if redraw then [.clear (s.shown s.backgroundw)] else []
    else [.setpieces s.backgroundw (setpiece s s.backgroundw redraw)]
  else []

/-- The background window is told at once where it has a client of its own. -/
structure TurnedBackground (how : Bool) (s s' : State) (events : List Event) : Prop where
  flagged : Flagged s s'
  others : ∀ v, v ≠ s.backgroundw → (s'.win v).newpieces = (s.win v).newpieces ∧
    (s'.win v).shadow = (s.win v).shadow ∧
    (how || (s'.win v).redisplay) = (how || (s.win v).redisplay)
  events : events = backgroundOutcome how s

section

variable {s s' : State} {w b v : WinId} {how : Bool}

theorem background_spec (redraw : Bool)
    (fits : (s.win s.backgroundw).inchan ≠ -1 → Fits s s.backgroundw) :
    ∃ s' events, background redraw s = some (s', events) ∧ Flagged s s' ∧
      (∀ v, v ≠ s.backgroundw → s'.win v = s.win v) ∧
      events = if (s.win s.backgroundw).inchan = -1 then
          if redraw then [.clear (s.shown s.backgroundw)] else []
        else [.setpieces s.backgroundw (setpiece s s.backgroundw redraw)] := by
  by_cases client : (s.win s.backgroundw).inchan = -1
  · refine ⟨clearFlags s.backgroundw s, _, ?_, flagged_clearFlags, fun v away => ?_, rfl⟩
    · simp only [background, client, if_true, Option.bind_eq_bind, Option.bind_some]
    · exact modify_win_other away
  · have flagged : Flagged s (s.modify s.backgroundw fun win =>
        { win with shadow := piececheck s s.backgroundw }) := .of_modify rfl
    refine ⟨clearFlags s.backgroundw (s.modify s.backgroundw fun win =>
      { win with shadow := piececheck s s.backgroundw }), _, ?_, flagged.trans flagged_clearFlags,
      fun v away => ?_, rfl⟩
    · simp only [background, if_neg client, wnSetpieces_eq (fits client), Option.bind_eq_bind,
        Option.bind_some]
    · rw [clearFlags, modify_win_other away, modify_win_other away]

theorem repaintOne_background (dummy : (s.win s.backgroundw).dummy = true)
    (alone : wmInback s (some s.backgroundw) ≠ some s.backgroundw)
    (fits : (s.win s.backgroundw).inchan ≠ -1 → Fits s s.backgroundw) :
    ∃ s' events, repaintOne how s.backgroundw s = some (s', events) ∧
      TurnedBackground how s s' events := by
  -- what `wn_repaint` marks before
  have marked : ∃ s₁, (if how then markAll s.backgroundw s else s) = s₁ ∧ Flagged s s₁ ∧
      (s₁.win s.backgroundw).redisplay = (how || (s.win s.backgroundw).redisplay) ∧
      (s₁.win s.backgroundw).newpieces = (s.win s.backgroundw).newpieces ∧
      ∀ v, v ≠ s.backgroundw → (s₁.win v).newpieces = (s.win v).newpieces ∧
        (s₁.win v).shadow = (s.win v).shadow ∧
        (how || (s₁.win v).redisplay) = (how || (s.win v).redisplay) := by
    refine ⟨_, rfl, ?_⟩
    cases how with
    | false => exact ⟨.refl s, rfl, rfl, fun _ _ => ⟨rfl, rfl, rfl⟩⟩
    | true =>
      have first : Flagged s (s.modify s.backgroundw fun win =>
        { win with redisplay := true, shadow := 0 }) := .of_modify rfl
      simp only [if_true, markAll, first.wmInback, Bool.true_or]
      cases back : wmInback s (some s.backgroundw) with
      | none =>
        refine ⟨first, by rw [modify_win_self], by rw [modify_win_self], fun v away => ?_⟩
        rw [modify_win_other away]
        exact ⟨rfl, rfl, trivial⟩
      | some bw =>
        have other : s.backgroundw ≠ bw := fun same => alone (same ▸ back)
        refine ⟨first.trans (.of_modify rfl), ?_, ?_, fun v away => ?_⟩
        · rw [modify_win_other other, modify_win_self]
        · rw [modify_win_other other, modify_win_self]
        · by_cases same : v = bw
          · rw [same, modify_win_self, modify_win_other other.symm]
            exact ⟨rfl, rfl, trivial⟩
          · rw [modify_win_other same, modify_win_other away]
            exact ⟨rfl, rfl, trivial⟩
  obtain ⟨s₁, eq₁, flagged₁, redisplay₁, newpieces₁, others₁⟩ := marked
  have background₁ : s₁.backgroundw = s.backgroundw := by
    rw [flagged₁.rest]
  have inchan₁ : (s₁.win s.backgroundw).inchan = (s.win s.backgroundw).inchan := by
    rw [flagged₁.win]
  have fits₁ : (s₁.win s₁.backgroundw).inchan ≠ -1 → Fits s₁ s₁.backgroundw := by
    rw [background₁, inchan₁, Fits, flagged₁.win]
    exact fits
  have call := fun redraw => background_spec redraw fits₁
  rw [background₁, inchan₁, flagged₁.shown] at call
  simp only [flagged₁.setpiece] at call
  have turned : ∀ redraw s₂ events, redraw = (how || (s.win s.backgroundw).redisplay) →
      (redraw || (s.win s.backgroundw).newpieces) = true → Flagged s₁ s₂ →
      (∀ v, v ≠ s.backgroundw → s₂.win v = s₁.win v) →
      (events = if (s.win s.backgroundw).inchan = -1 then
          if redraw then [Event.clear (s.shown s.backgroundw)] else []
        else [.setpieces s.backgroundw (setpiece s s.backgroundw redraw)]) →
      TurnedBackground how s s₂ events := by
    rintro redraw s₂ events rfl either flagged₂ others₂ rfl
    refine ⟨flagged₁.trans flagged₂, fun v away => ?_, ?_⟩
    · rw [others₂ v away]
      exact others₁ v away
    · simp only [backgroundOutcome, either, if_true]
  rw [repaintOne]
  simp only [eq₁, flagged₁.dummy, dummy, if_true, redisplay₁, newpieces₁]
  cases redraw : (how || (s.win s.backgroundw).redisplay) with
  | true =>
    obtain ⟨s₂, events, eq₂, flagged₂, others₂, sent⟩ := call true
    refine ⟨s₂, events, by simp only [if_true, eq₂], ?_⟩
    exact turned true s₂ events redraw.symm rfl flagged₂ others₂ sent
  | false =>
    cases new : (s.win s.backgroundw).newpieces with
    | true =>
      obtain ⟨s₂, events, eq₂, flagged₂, others₂, sent⟩ := call false
      refine ⟨s₂, events, by simp only [Bool.false_eq_true, if_false, if_true, eq₂], ?_⟩
      exact turned false s₂ events redraw.symm (by rw [new]; rfl) flagged₂ others₂ sent
    | false =>
      refine ⟨s₁, [], by simp only [Bool.false_eq_true, if_false], flagged₁, others₁, ?_⟩
      simp only [backgroundOutcome, redraw, new, Bool.or_self, Bool.false_eq_true, if_false]

theorem outcome_congr (flagged : Flagged s s') (newpieces : (s'.win w).newpieces = (s.win w).newpieces)
    (shadow : (s'.win w).shadow = (s.win w).shadow)
    (redisplay : (how || (s'.win w).redisplay) = (how || (s.win w).redisplay)) :
    outcome how s' w = outcome how s w := by
  have redraw : redraws how s' w = redraws how s w := by
    rw [redraws, redraws, redisplay, shadow, flagged.piececheck]
  have send : sends how s' w = sends how s w := by
    rw [sends, sends, newpieces, redraw]
  rw [outcome, outcome, send, redraw, flagged.setpiece]

/-- The windows of some pairs were told. -/
structure Swept (how : Bool) (l : List (WinId × WinId)) (s s' : State) (events : List Event) :
    Prop where
  flagged : Flagged s s'
  others : ∀ v, v ∉ unpair l → s'.win v = s.win v
  events : ∀ background v, events.filter (Event.concerns background v) =
    if v ∈ l.map Prod.fst then outcome how s v else []

theorem mem_unpair_of_fst {l : List (WinId × WinId)} (listed : v ∈ l.map Prod.fst) :
    v ∈ unpair l := by
  obtain ⟨p, there, rfl⟩ := List.mem_map.mp listed
  exact mem_unpair there

/-- The loop runs over pairs up to the first window behind them. -/
theorem repaintFrom_pairs {l : List (WinId × WinId)} {pre rest : List WinId} {fuel : Nat}
    (stacked : Stacked s (pre ++ (unpair l ++ rest))) (away : s.backgroundw ∉ unpair l)
    (fits : ∀ p ∈ l, Fits s p.1) :
    ∃ s' events, Swept how l s s' events ∧
      repaintFrom how (l.length + fuel) (unpair l ++ rest).head? s =
        (repaintFrom how fuel rest.head? s').map fun later => (later.1, events ++ later.2) := by
  induction l generalizing s pre with
  | nil =>
    refine ⟨s, [], ⟨.refl s, fun _ _ => rfl, by simp⟩, ?_⟩
    simp
  | cons p l ih =>
    obtain ⟨w, b⟩ := p
    rw [unpair_cons, List.mem_cons, List.mem_cons, not_or, not_or] at away
    have here : Stacked s (pre ++ w :: b :: (unpair l ++ rest)) := stacked
    have back : wmInback s (some w) = some b := wmInback_eq here
    have nodup := (List.nodup_append.mp here.chain.nodup).2.1
    simp only [List.nodup_cons, List.mem_cons, List.mem_append, not_or] at nodup
    obtain ⟨⟨apart, out, -⟩, ⟨out', -⟩, -⟩ := nodup
    have plain : (s.win w).dummy = false := by
      have dummy := here.dummy w (by simp)
      cases flag : (s.win w).dummy with
      | false => rfl
      | true => exact absurd (dummy.mp flag).symm away.1
    obtain ⟨s₁, events₁, eq₁, turned⟩ : ∃ s₁ events, repaintOne how w s = some (s₁, events) ∧
        Turned how w b s s₁ events :=
      repaintOne_spec back (Ne.symm apart) plain (fits (w, b) (List.mem_cons_self ..))
    have stacked₁ : Stacked s₁ ((pre ++ [w, b]) ++ (unpair l ++ rest)) := by
      rw [List.append_assoc]
      exact turned.flagged.stacked here
    have background₁ : s₁.backgroundw = s.backgroundw := by rw [turned.flagged.rest]
    have fits₁ : ∀ p ∈ l, Fits s₁ p.1 := by
      intro p listed
      rw [Fits, turned.flagged.win]
      exact fits p (List.mem_cons_of_mem _ listed)
    obtain ⟨s', events, swept, eq⟩ := ih stacked₁ (by rw [background₁]; exact away.2.2) fits₁
    -- the turns before wrote no record of the later pairs
    have same : ∀ v, v ∈ unpair l → s₁.win v = s.win v := fun v listed =>
      turned.others v (ne_of_mem_of_not_mem listed out) (ne_of_mem_of_not_mem listed out')
    have later : ∀ v, v ∈ unpair l → outcome how s₁ v = outcome how s v := by
      intro v listed
      have win := same v listed
      exact outcome_congr turned.flagged (by rw [win]) (by rw [win]) (by rw [win])
    refine ⟨s', events₁ ++ events, ?_, ?_⟩
    · constructor
      case flagged => exact turned.flagged.trans swept.flagged
      case others =>
        intro v listed
        rw [unpair_cons, List.mem_cons, List.mem_cons, not_or, not_or] at listed
        rw [swept.others v listed.2.2, turned.others v listed.1 listed.2.1]
      case events =>
        intro background v
        rw [List.filter_append, turned.events, swept.events, List.map_cons]
        by_cases first : v = w
        · have last : v ∉ l.map Prod.fst := fun listed =>
            out (first ▸ mem_unpair_of_fst listed)
          rw [if_pos first, if_neg last, List.append_nil, if_pos (by simp [first]), first]
        · rw [if_neg first, List.nil_append]
          by_cases listed : v ∈ l.map Prod.fst
          · rw [if_pos listed, if_pos (List.mem_cons_of_mem _ listed),
              later v (mem_unpair_of_fst listed)]
          · rw [if_neg listed, if_neg]
            rw [List.mem_cons, not_or]
            exact ⟨first, listed⟩
    · have next : wnInback s₁ w = (unpair l ++ rest).head? := by
        rw [turned.flagged.wnInback, wnInback_eq here (Ne.symm away.1)]
      have length : ((w, b) :: l).length + fuel = (l.length + fuel) + 1 := by
        rw [List.length_cons]
        omega
      rw [length, unpair_cons, List.cons_append, List.head?_cons, repaintFrom]
      simp only [eq₁, Option.bind_eq_bind, Option.bind_some, next, eq]
      cases repaintFrom how fuel rest.head? s' with
      | none => rfl
      | some result => simp [List.append_assoc]

/-- What all windows are told by `wn_repaint`. -/
structure Told (how : Bool) (pairs : Pairs) (s s' : State) (events : List Event) : Prop where
  flagged : Flagged s s'
  windows : ∀ w ∈ (pairs.front ++ pairs.behind).map Prod.fst,
    events.filter (Event.concerns s.backgroundw w) = outcome how s w
  background : events.filter (Event.concerns s.backgroundw s.backgroundw) = backgroundOutcome how s

theorem backgroundOutcome_concerns (v : WinId) :
    (backgroundOutcome how s).filter (Event.concerns s.backgroundw v) =
      if v = s.backgroundw then backgroundOutcome how s else [] := by
  by_cases same : v = s.backgroundw
  · rw [if_pos same, same, List.filter_eq_self]
    intro event listed
    simp only [backgroundOutcome] at listed
    split at listed
    next =>
      split at listed
      next =>
        split at listed
        next =>
          rw [List.mem_singleton.mp listed]
          simp [Event.concerns]
        next => cases listed
      next =>
        rw [List.mem_singleton.mp listed]
        simp [Event.concerns]
    next => cases listed
  · rw [if_neg same, List.filter_eq_nil_iff]
    intro event listed
    simp only [backgroundOutcome] at listed
    split at listed
    next =>
      split at listed
      next =>
        split at listed
        next =>
          rw [List.mem_singleton.mp listed]
          simp [Event.concerns, same]
        next => cases listed
      next =>
        rw [List.mem_singleton.mp listed]
        simp [Event.concerns, Ne.symm same]
    next => cases listed

theorem wnRepaint_spec {pairs : Pairs} (stacked : Stacked s (pairs.order s.backgroundw))
    (fits : ∀ p ∈ pairs.front ++ pairs.behind, Fits s p.1)
    (client : (s.win s.backgroundw).inchan ≠ -1 → Fits s s.backgroundw) :
    ∃ s' events, wnRepaint how s = some (s', events) ∧ Told how pairs s s' events := by
  have nodup := stacked.chain.nodup
  have length := stacked.length_le
  have pairLength : ∀ l : List (WinId × WinId), l.length ≤ (unpair l).length := by
    intro l
    induction l with
    | nil => simp
    | cons p l ih =>
      rw [unpair_cons]
      simp only [List.length_cons]
      omega
  simp only [Pairs.order, List.length_append, List.length_cons] at nodup length
  have few := pairLength pairs.front
  have few' := pairLength pairs.behind
  obtain ⟨spare, enough⟩ : ∃ spare, s.windows =
      pairs.front.length + (1 + (pairs.behind.length + spare)) :=
    ⟨s.windows - pairs.front.length - 1 - pairs.behind.length, by omega⟩
  have out : s.backgroundw ∉ unpair pairs.front ∧ s.backgroundw ∉ unpair pairs.behind := by grind
  have apart : ∀ v ∈ unpair pairs.behind, v ∉ unpair pairs.front := by grind
  -- the pairs in front
  obtain ⟨s₁, events₁, swept₁, eq₁⟩ := @repaintFrom_pairs s how pairs.front []
    (s.backgroundw :: unpair pairs.behind) (1 + (pairs.behind.length + spare)) stacked out.1
    fun p listed => fits p (List.mem_append_left _ listed)
  have background₁ : s₁.backgroundw = s.backgroundw := by rw [swept₁.flagged.rest]
  have stacked₁ : Stacked s₁ (unpair pairs.front ++ s.backgroundw :: unpair pairs.behind) :=
    swept₁.flagged.stacked stacked
  have win₁ : s₁.win s.backgroundw = s.win s.backgroundw := swept₁.others _ out.1
  -- the background window
  have dummy₁ : (s₁.win s₁.backgroundw).dummy = true := by
    rw [background₁]
    exact (stacked₁.dummy _ (by simp)).mpr background₁.symm
  have next₁ : wmInback s₁ (some s₁.backgroundw) = (unpair pairs.behind).head? := by
    rw [background₁]
    exact wmInback_eq stacked₁
  have alone₁ : wmInback s₁ (some s₁.backgroundw) ≠ some s₁.backgroundw := by
    rw [next₁, background₁]
    exact fun same => out.2 (List.mem_of_head? same)
  have client₁ : (s₁.win s₁.backgroundw).inchan ≠ -1 → Fits s₁ s₁.backgroundw := by
    rw [background₁, win₁, Fits, win₁]
    exact client
  obtain ⟨s₂, events₂, eq₂, turned₂⟩ : ∃ s₂ events,
      repaintOne how s₁.backgroundw s₁ = some (s₂, events) ∧
        TurnedBackground how s₁ s₂ events :=
    repaintOne_background dummy₁ alone₁ client₁
  have outcome₁ : backgroundOutcome how s₁ = backgroundOutcome how s := by
    simp only [backgroundOutcome, background₁, win₁, swept₁.flagged.shown, swept₁.flagged.setpiece]
  have sent₂ : events₂ = backgroundOutcome how s := turned₂.events.trans outcome₁
  have background₂ : s₂.backgroundw = s.backgroundw := by
    rw [turned₂.flagged.rest]
    exact background₁
  -- the pairs behind
  have stacked₂ : Stacked s₂ ((unpair pairs.front ++ [s.backgroundw]) ++
      (unpair pairs.behind ++ [])) := by
    simpa using turned₂.flagged.stacked stacked₁
  have flagged₂ := swept₁.flagged.trans turned₂.flagged
  obtain ⟨s₃, events₃, swept₃, eq₃⟩ := @repaintFrom_pairs s₂ how pairs.behind _ [] spare stacked₂
    (by rw [background₂]; exact out.2) fun p listed => by
      rw [Fits, flagged₂.win]
      exact fits p (List.mem_append_right _ listed)
  have later : ∀ v ∈ unpair pairs.behind, outcome how s₂ v = outcome how s v := by
    intro v listed
    have other : v ≠ s₁.backgroundw := by
      rw [background₁]
      exact ne_of_mem_of_not_mem listed out.2
    have same := swept₁.others v (apart v listed)
    have left := turned₂.others v other
    rw [same] at left
    exact outcome_congr flagged₂ left.1 left.2.1 left.2.2
  refine ⟨s₃, events₁ ++ (events₂ ++ events₃), ?_, ?_⟩
  · have first : s.list.first = (unpair pairs.front ++ s.backgroundw ::
      unpair pairs.behind).head? := stacked.chain.first
    have next₂ : wnInback s₂ s.backgroundw = (unpair pairs.behind).head? := by
      have flag : (s₁.win s.backgroundw).dummy = true := background₁ ▸ dummy₁
      rw [turned₂.flagged.wnInback, wnInback, flag, if_pos rfl, ← background₁, next₁]
    rw [List.append_nil, List.head?_nil] at eq₃
    rw [background₁] at eq₂
    have last : repaintFrom how spare none s₃ = some (s₃, []) := by
      cases spare <;> rfl
    rw [wnRepaint, first, enough, eq₁, List.head?_cons, Nat.add_comm 1, repaintFrom]
    simp only [eq₂, Option.bind_eq_bind, Option.bind_some, next₂, eq₃, last, Option.map_some,
      List.append_nil]
  · constructor
    case flagged => exact flagged₂.trans swept₃.flagged
    case windows =>
      intro w listed
      rw [List.map_append, List.mem_append] at listed
      have other : w ≠ s.backgroundw := by
        rintro rfl
        rcases listed with front | behind
        · exact out.1 (mem_unpair_of_fst front)
        · exact out.2 (mem_unpair_of_fst behind)
      rw [List.filter_append, List.filter_append, swept₁.events, swept₃.events, sent₂,
        backgroundOutcome_concerns, if_neg other, List.nil_append]
      rcases listed with front | behind
      · have absent : w ∉ pairs.behind.map Prod.fst := fun there =>
          apart w (mem_unpair_of_fst there) (mem_unpair_of_fst front)
        rw [if_pos front, if_neg absent, List.append_nil]
      · have absent : w ∉ pairs.front.map Prod.fst := fun there =>
          apart w (mem_unpair_of_fst behind) (mem_unpair_of_fst there)
        rw [if_pos behind, if_neg absent, List.nil_append, later w (mem_unpair_of_fst behind)]
    case background =>
      have absent : s.backgroundw ∉ pairs.front.map Prod.fst := fun there =>
        out.1 (mem_unpair_of_fst there)
      have absent' : s.backgroundw ∉ pairs.behind.map Prod.fst := fun there =>
        out.2 (mem_unpair_of_fst there)
      rw [List.filter_append, List.filter_append, swept₁.events, swept₃.events, sent₂,
        backgroundOutcome_concerns, if_pos rfl, if_neg absent, if_neg absent', List.nil_append,
        List.append_nil]

end

end Irix.Mex
