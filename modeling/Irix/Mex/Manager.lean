import Irix.Mex.Visible

/-! # Windows with borders

The window manager gives each window a border, which is a window of its own right
behind it, and moves the two together.  The stack is a list of such pairs with
the background window somewhere among them.
-/

namespace Irix.Mex

open Function
open Lib (Rect Pool)
open Lib.Linked

def borderwidth : Int := 1

def drop : Int := 1

def wnNewwin (s : State) : WinId × State :=
  let new := wmNewwin s
  (new.1, (wmNewwin new.2).2)

/-- The border `wn_newwin` makes behind the window. -/
def newBorder (s : State) : WinId := (wmNewwin (wmNewwin s).2).1

/-- There is no border behind the background window. -/
def wnInback (s : State) (w : WinId) : Option WinId :=
  if (s.win w).dummy then wmInback s (some w) else wmInback s (wmInback s (some w))

def wnDerez (w : WinId) (s : State) : Option State := do
  let nextw := wmInback s (some w)
  let s ← wmDerez (some w) s
  wmDerez nextw s

/-- One side of the part of `wn_resize` which keeps windows on the screen. -/
def ontoScreen (titleheight size low high : Int) : Int × Int :=
  let (low, high) :=
    if low > size - titleheight then
      let adjust := toShort (low - (size - titleheight))
      (toShort (low - adjust), toShort (high - adjust))
    else (low, high)
  if high < titleheight then
    let adjust := toShort (titleheight - high)
    (toShort (low + adjust), toShort (high + adjust))
  else (low, high)

/-- The rectangle of the border around a window. -/
def borderRect (titleheight : Int) (titled : Bool) (r : Rect) : Rect :=
  ⟨toShort (r.xmin - 2 * borderwidth), toShort (r.xmax + 2 * borderwidth + drop),
    toShort (r.ymin - 2 * borderwidth - drop),
    toShort (r.ymax + 2 * borderwidth + if titled then titleheight else 0)⟩

def wnResize (w1 : WinId) (r : Rect) (s : State) : Option State := do
  let (x1, x2) := ontoScreen s.font.titleheight xmaxscreen r.xmin r.xmax
  let (y1, y2) := ontoScreen s.font.titleheight ymaxscreen r.ymin r.ymax
  let r : Rect := ⟨x1, x2, y1, y2⟩
  let w2 := wnInback s w1
  let s ← wnDerez w1 s
  let s ← wmResize (some w1) r s
  let bw := wmInback s (some w1)
  let s ← wmResize bw (borderRect s.font.titleheight (s.win w1).titled r) s
  match w2 with
  | none => some s
  | some w2 =>
    let bw := wmInback s (some w1)
    let s ← wmPromote (some w1) (some w2) s
    wmPromote bw (wmInback s (some w1)) s

def wnPop (w : Option WinId) (s : State) : Option State :=
  match w with
  | none => some s
  | some w => do
    let bw := wmInback s (some w)
    let s ← wmPop (some w) s
    wmPromote bw (wmInback s (some w)) s

/-- The last loop of `wn_push`. -/
def pushOver (w bw : Option WinId) : Nat → State → Option State
  | 0, s => if wmInback s w = bw then some s else none
  | fuel + 1, s =>
    if wmInback s w = bw then some s
    else do
      let s ← wmPromote (wmInback s w) w s
      pushOver w bw fuel s

def wnPush (w : Option WinId) (s : State) : Option State :=
  match w with
  | none => some s
  | some w => do
    let bw := wmInback s (some w)
    let w := wmInfront s bw
    let s ← wmPush bw s
    pushOver w bw s.windows s

def wmDetachtx (w : WinId) (s : State) : State :=
  s.modify w fun win => { win with txport := -1 }

def wmDetachgf (w : WinId) (s : State) : State :=
  s.modify w fun win => if win.inchan = -1 then win else { win with gfnum := -1, inchan := -1 }

def wnDestroy (w : Option WinId) (kill : Bool) (s : State) : Option State :=
  match w with
  | none => some s
  | some w =>
    if s.winConsole = some w then some s
    else do
      let s ← if w = s.backgroundw then some s else wnDerez w s
      let s := if kill then wmDetachgf w (wmDetachtx w s) else s
      if w = s.backgroundw then some s
      else
        let nextw := wmInback s (some w)
        some (wmFreewin nextw (wmFreewin (some w) s))

/-- The console is created, sized and popped; `r` is what the system says of its
    textport. -/
def wnInitconsole (r : Rect) (s : State) : Option State := do
  let new := wnNewwin s
  let s := { new.2 with winConsole := some new.1 }.modify new.1 fun win =>
    { win with titled := true, textport := true, txport := 0, inchan := -1 }
  let s ← wnResize new.1
    ⟨toShort (r.xmin + 2), toShort (r.xmax - 2), toShort (r.ymin + 2), toShort (r.ymax - 2)⟩ s
  wnPop (some new.1) s

/-! ## What windows remember -/

/-- What an operation leaves alone of the windows of a list: one whose pieces
    changed is marked, and so is one that shows a pixel it did not show. -/
structure Noted (l : List WinId) (s s' : State) : Prop where
  told : ∀ w ∈ l, (s'.win w).newpieces = false → (s.win w).newpieces = false ∧
    (s'.win w).ys = (s.win w).ys ∧ ∀ p ∈ (s.win w).ys, s'.piece p = s.piece p
  marked : ∀ w ∈ l, (s.win w).redisplay = true → (s'.win w).redisplay = true
  gained : ∀ w ∈ l, (s'.win w).redisplay = false → ∀ x y, s'.cover w x y ≤ s.cover w x y
  shadow : ∀ w ∈ l, (s'.win w).shadow = (s.win w).shadow
  fullscreen : ∀ w ∈ l, (s'.win w).fullscreen = (s.win w).fullscreen
  inchan : ∀ w ∈ l, (s'.win w).inchan ≠ -1 → (s.win w).inchan ≠ -1

namespace Noted

variable {l : List WinId} {s s' s'' : State}

theorem refl (s : State) : Noted l s s :=
  ⟨fun _ _ quiet => ⟨quiet, rfl, fun _ _ => rfl⟩, fun _ _ => id, fun _ _ _ _ _ => Nat.le_refl _,
    fun _ _ => rfl, fun _ _ => rfl, fun _ _ => id⟩

theorem trans (left : Noted l s s') (right : Noted l s' s'') : Noted l s s'' := by
  constructor
  case told =>
    intro w listed quiet
    obtain ⟨quiet', ys', same'⟩ := right.told w listed quiet
    obtain ⟨quiet, ys, same⟩ := left.told w listed quiet'
    refine ⟨quiet, ys'.trans ys, fun p here => ?_⟩
    rw [same' p (ys ▸ here), same p here]
  case marked => exact fun w listed marked => right.marked w listed (left.marked w listed marked)
  case gained =>
    intro w listed quiet x y
    have quiet' : (s'.win w).redisplay = false := by
      cases marked : (s'.win w).redisplay with
      | false => rfl
      | true => rw [right.marked w listed marked] at quiet; cases quiet
    exact Nat.le_trans (right.gained w listed quiet x y) (left.gained w listed quiet' x y)
  case shadow => exact fun w listed => (right.shadow w listed).trans (left.shadow w listed)
  case fullscreen =>
    exact fun w listed => (right.fullscreen w listed).trans (left.fullscreen w listed)
  case inchan => exact fun w listed other => left.inchan w listed (right.inchan w listed other)

theorem of_kept (kept : Kept s s') : Noted l s s' := by
  constructor
  case told => exact fun w _ => kept.told w
  case marked => exact fun w _ => kept.marked w
  case gained => exact fun w _ => kept.gained w
  case shadow => intro w _; rw [kept.kept w]
  case fullscreen => intro w _; rw [kept.kept w]
  case inchan =>
    intro w _ other
    rwa [kept.kept w] at other

end Noted

theorem Noted.mono {l l' : List WinId} {s s' : State} (noted : Noted l s s')
    (sub : ∀ v ∈ l', v ∈ l) : Noted l' s s' :=
  ⟨fun v listed => noted.told v (sub v listed), fun v listed => noted.marked v (sub v listed),
    fun v listed => noted.gained v (sub v listed), fun v listed => noted.shadow v (sub v listed),
    fun v listed => noted.fullscreen v (sub v listed), fun v listed => noted.inchan v (sub v listed)⟩

/-- Nothing has to be known of a window that was never shown anything. -/
structure Unseen (s : State) (w : WinId) : Prop where
  told : (s.win w).newpieces = false → (s.win w).ys = []
  gained : (s.win w).redisplay = false → ∀ x y, s.cover w x y = 0
  fullscreen : (s.win w).fullscreen = false

theorem Unseen.noted {s s' : State} {w : WinId} (unseen : Unseen s w) (noted : Noted [w] s s') :
    Unseen s' w := by
  have here := List.mem_singleton_self w
  constructor
  case told =>
    intro quiet
    obtain ⟨quiet', ys, -⟩ := noted.told w here quiet
    rw [ys, unseen.told quiet']
  case gained =>
    intro quiet x y
    have quiet' : (s.win w).redisplay = false := by
      cases marked : (s.win w).redisplay with
      | false => rfl
      | true => rw [noted.marked w here marked] at quiet; cases quiet
    have le := noted.gained w here quiet x y
    rw [unseen.gained quiet' x y] at le
    exact Nat.le_zero.mp le
  case fullscreen => exact (noted.fullscreen w here).trans unseen.fullscreen

/-! ## A pair in the stack -/

section

variable {s s' : State} {pre post order : List WinId} {w b v : WinId} {l : List WinId}

theorem wmInback_eq (stacked : Stacked s (pre ++ w :: post)) :
    wmInback s (some w) = post.head? :=
  stacked.chain.next_of

theorem wmInfront_eq (stacked : Stacked s (pre ++ w :: post)) :
    wmInfront s (some w) = pre.getLast? :=
  stacked.chain.prev_of

theorem wnInback_eq (stacked : Stacked s (pre ++ w :: b :: post)) (plain : w ≠ s.backgroundw) :
    wnInback s w = post.head? := by
  have dummy := stacked.dummy w (by simp)
  have flag : (s.win w).dummy = false := by
    cases flag : (s.win w).dummy with
    | false => rfl
    | true => exact absurd (dummy.mp flag) plain
  have stacked' : Stacked s ((pre ++ [w]) ++ b :: post) := by simpa using stacked
  rw [wnInback, flag, if_neg Bool.false_ne_true, wmInback_eq stacked, List.head?_cons,
    wmInback_eq stacked']

/-- Two windows next to each other keep their order when they are popped. -/
theorem wnPop_spec (stacked : Stacked s (pre ++ w :: b :: post)) :
    ∃ s', wnPop (some w) s = some s' ∧ Stacked s' (w :: b :: (pre ++ post)) ∧ Kept s s' := by
  obtain ⟨s₁, eq₁, stacked₁, kept₁⟩ := wmPop_spec stacked
  have back := wmInback_eq stacked
  have back₁ : wmInback s₁ (some w) = (pre ++ b :: post).head? :=
    wmInback_eq (show Stacked s₁ ([] ++ w :: (pre ++ b :: post)) from stacked₁)
  rw [wnPop]
  simp only [eq₁, back, back₁, List.head?_cons, Option.bind_eq_bind, Option.bind_some]
  cases pre with
  | nil =>
    refine ⟨s₁, ?_, stacked₁, kept₁⟩
    simp [wmPromote]
  | cons w2 mid =>
    obtain ⟨s₂, eq₂, stacked₂, kept₂⟩ := @wmPromote_spec s₁ [w] mid post b w2 stacked₁
    exact ⟨s₂, eq₂, stacked₂, kept₁.trans kept₂⟩

/-- The loop of `wn_push` moves the window back to its border. -/
theorem pushOver_spec {mid : List WinId} {fuel : Nat}
    (stacked : Stacked s (pre ++ w :: (mid ++ b :: post))) (enough : mid.length ≤ fuel) :
    ∃ s', pushOver (some w) (some b) fuel s = some s' ∧
      Stacked s' (pre ++ (mid ++ w :: b :: post)) ∧ Kept s s' := by
  induction mid generalizing s pre fuel with
  | nil =>
    have back : wmInback s (some w) = some b := wmInback_eq stacked
    refine ⟨s, ?_, stacked, .refl s⟩
    cases fuel <;> simp only [pushOver, back, if_true]
  | cons t mid ih =>
    have back : wmInback s (some w) = some t := wmInback_eq stacked
    have other : t ≠ b := by
      rintro rfl
      have nodup := (List.nodup_append.mp stacked.chain.nodup).2.1
      simp at nodup
    cases fuel with
    | zero => simp at enough
    | succ fuel =>
      obtain ⟨s₁, eq₁, stacked₁, kept₁⟩ := @wmPromote_spec s pre [] (mid ++ b :: post) t w stacked
      have stacked₁' : Stacked s₁ ((pre ++ [t]) ++ w :: (mid ++ b :: post)) := by
        simpa using stacked₁
      obtain ⟨s₂, eq₂, stacked₂, kept₂⟩ := ih stacked₁' (by simpa using enough)
      refine ⟨s₂, ?_, by simpa using stacked₂, kept₁.trans kept₂⟩
      rw [pushOver, if_neg (by rw [back]; simpa using other)]
      simp only [back, eq₁, Option.bind_eq_bind, Option.bind_some, eq₂]

theorem wnPush_spec (stacked : Stacked s (pre ++ w :: b :: post)) :
    ∃ s', wnPush (some w) s = some s' ∧
      Stacked s' (pre ++ (post.takeWhile (fun v => decide (v ≠ s.backgroundw)) ++
        w :: b :: post.dropWhile fun v => decide (v ≠ s.backgroundw))) ∧ Kept s s' := by
  have back : wmInback s (some w) = some b := wmInback_eq stacked
  have stacked' : Stacked s ((pre ++ [w]) ++ b :: post) := by simpa using stacked
  have front : wmInfront s (some b) = some w := by
    rw [wmInfront_eq stacked']
    simp
  obtain ⟨s₁, eq₁, stacked₁, kept₁⟩ := wmPush_spec stacked'
  rw [List.append_assoc] at stacked₁
  have few : (post.takeWhile fun v => decide (v ≠ s.backgroundw)).length ≤ s₁.windows := by
    have le := stacked₁.length_le
    simp only [List.length_append, List.length_cons] at le
    omega
  obtain ⟨s₂, eq₂, stacked₂, kept₂⟩ := pushOver_spec stacked₁ few
  refine ⟨s₂, ?_, stacked₂, kept₁.trans kept₂⟩
  rw [wnPush]
  simp only [back, front, eq₁, Option.bind_eq_bind, Option.bind_some, eq₂]

theorem wnDerez_spec (stacked : Stacked s (pre ++ w :: b :: post)) :
    ∃ s', wnDerez w s = some s' ∧ Stacked s' (pre ++ (post ++ [w, b])) ∧ Kept s s' := by
  have back : wmInback s (some w) = some b := wmInback_eq stacked
  obtain ⟨s₁, eq₁, stacked₁, kept₁⟩ := wmDerez_spec stacked
  obtain ⟨s₂, eq₂, stacked₂, kept₂⟩ :=
    wmDerez_spec (show Stacked s₁ (pre ++ b :: (post ++ [w])) by simpa using stacked₁)
  refine ⟨s₂, ?_, by simpa using stacked₂, kept₁.trans kept₂⟩
  rw [wnDerez]
  simp only [back, eq₁, Option.bind_eq_bind, Option.bind_some, eq₂]

/-- Only the size is written, so nothing needs to be remembered. -/
theorem noted_modify {f : Window → Window} (ys : ∀ win, (f win).ys = win.ys)
    (newpieces : ∀ win, (f win).newpieces = win.newpieces)
    (redisplay : ∀ win, (f win).redisplay = win.redisplay)
    (shadow : ∀ win, (f win).shadow = win.shadow)
    (fullscreen : ∀ win, (f win).fullscreen = win.fullscreen)
    (inchan : ∀ win, (f win).inchan ≠ -1 → win.inchan ≠ -1) : Noted l s (s.modify w f) := by
  have same : ∀ v, ((s.modify w f).win v).ys = (s.win v).ys ∧
      ((s.modify w f).win v).newpieces = (s.win v).newpieces ∧
      ((s.modify w f).win v).redisplay = (s.win v).redisplay ∧
      ((s.modify w f).win v).shadow = (s.win v).shadow ∧
      ((s.modify w f).win v).fullscreen = (s.win v).fullscreen ∧
      (((s.modify w f).win v).inchan ≠ -1 → (s.win v).inchan ≠ -1) := by
    intro v
    by_cases here : v = w
    · rw [here, modify_win_self]
      exact ⟨ys _, newpieces _, redisplay _, shadow _, fullscreen _, inchan _⟩
    · rw [modify_win_other here]
      exact ⟨rfl, rfl, rfl, rfl, rfl, id⟩
  constructor
  case told =>
    intro v _ quiet
    rw [(same v).2.1] at quiet
    exact ⟨quiet, (same v).1, fun _ _ => rfl⟩
  case marked =>
    intro v _ marked
    rwa [(same v).2.2.1]
  case gained =>
    intro v _ _ x y
    exact Nat.le_of_eq (total_congr (.of_eq (same v).1) fun _ _ => rfl)
  case shadow => exact fun v _ => (same v).2.2.2.1
  case fullscreen => exact fun v _ => (same v).2.2.2.2.1
  case inchan => exact fun v _ => (same v).2.2.2.2.2

theorem noted_resized {font : Font} {r : Rect} : Noted l s (s.modify w (resized font r)) :=
  noted_modify (fun _ => rfl) (fun _ => rfl) (fun _ => rfl) (fun _ => rfl) (fun _ => rfl)
    fun _ => id

/-- A window is resized where it stands in the stack. -/
theorem wnResize_spec (stacked : Stacked s (pre ++ w :: b :: post)) (plain : w ≠ s.backgroundw)
    (plain' : b ≠ s.backgroundw) (r : Rect) :
    ∃ s', wnResize w r s = some s' ∧ Stacked s' (pre ++ w :: b :: post) ∧ Noted l s s' ∧
      s'.backgroundw = s.backgroundw := by
  have next := wnInback_eq stacked plain
  obtain ⟨s₁, eq₁, stacked₁, kept₁⟩ := wnDerez_spec stacked
  -- the two are last now, behind the background window
  have back : s₁.backgroundw ∈ pre ++ post := by
    have listed := stacked.background
    rw [List.mem_append, List.mem_cons, List.mem_cons] at listed
    rw [kept₁.backgroundw, List.mem_append]
    rcases listed with front | same | same' | behind
    · exact .inl front
    · exact absurd same.symm plain
    · exact absurd same'.symm plain'
    · exact .inr behind
  have split₁ : Stacked s₁ ((pre ++ post) ++ w :: [b]) := by simpa using stacked₁
  generalize hx : ontoScreen s.font.titleheight xmaxscreen r.xmin r.xmax = x
  generalize hy : ontoScreen s.font.titleheight ymaxscreen r.ymin r.ymax = y
  obtain ⟨eq₂, stacked₂⟩ := wmResize_spec split₁ back ⟨x.1, x.2, y.1, y.2⟩
  generalize hs₂ : s₁.modify w (resized s₁.font ⟨x.1, x.2, y.1, y.2⟩) = s₂ at eq₂ stacked₂
  have noted₂ : Noted l s₁ s₂ := hs₂ ▸ noted_resized
  have background₂ : s₂.backgroundw = s₁.backgroundw := hs₂ ▸ rfl
  have border₂ : wmInback s₂ (some w) = some b := wmInback_eq stacked₂
  have split₂ : Stacked s₂ (((pre ++ post) ++ [w]) ++ b :: []) := by simpa using stacked₂
  obtain ⟨eq₃, stacked₃⟩ := wmResize_spec split₂
    (background₂ ▸ List.mem_append_left _ back)
    (borderRect s₂.font.titleheight (s₂.win w).titled ⟨x.1, x.2, y.1, y.2⟩)
  generalize hs₃ : s₂.modify b (resized s₂.font
    (borderRect s₂.font.titleheight (s₂.win w).titled ⟨x.1, x.2, y.1, y.2⟩)) = s₃ at eq₃ stacked₃
  have noted₃ : Noted l s₂ s₃ := hs₃ ▸ noted_resized
  have background₃ : s₃.backgroundw = s₂.backgroundw := hs₃ ▸ rfl
  have noted : Noted l s s₃ := (Noted.of_kept kept₁).trans (noted₂.trans noted₃)
  have background : s₃.backgroundw = s.backgroundw := by
    rw [background₃, background₂, kept₁.backgroundw]
  rw [wnResize]
  simp only [hx, hy, next, eq₁, eq₂, border₂, eq₃, Option.bind_eq_bind, Option.bind_some]
  cases post with
  | nil => exact ⟨s₃, rfl, by simpa using stacked₃, noted, background⟩
  | cons w2 post =>
    have split₃ : Stacked s₃ (pre ++ (w2 :: post ++ w :: [b])) := by simpa using stacked₃
    obtain ⟨s₄, eq₄, stacked₄, kept₄⟩ := wmPromote_spec split₃
    have split₃' : Stacked s₃ ((pre ++ w2 :: post) ++ w :: [b]) := by simpa using stacked₃
    have border₃ : wmInback s₃ (some w) = some b := wmInback_eq split₃'
    have next₄ : wmInback s₄ (some w) = some w2 := wmInback_eq stacked₄
    have split₄ : Stacked s₄ ((pre ++ [w]) ++ (w2 :: post ++ b :: [])) := by
      simpa using stacked₄
    obtain ⟨s₅, eq₅, stacked₅, kept₅⟩ := wmPromote_spec split₄
    have kept := kept₄.trans kept₅
    refine ⟨s₅, ?_, by simpa using stacked₅, noted.trans (.of_kept kept),
      kept.backgroundw.trans background⟩
    simp only [List.head?_cons, border₃, eq₄, next₄, Option.bind_some, eq₅]

theorem wnNewwin_spec (stacked : Stacked s order) :
    Stacked (wnNewwin s).2 (order ++ [(wnNewwin s).1, newBorder s]) ∧
      (∀ v ∈ order, (wnNewwin s).2.win v = s.win v) ∧
      (wnNewwin s).2.backgroundw = s.backgroundw ∧ (wnNewwin s).2.piece = s.piece ∧
      Unseen (wnNewwin s).2 (wnNewwin s).1 ∧ (wnNewwin s).1 ∉ order := by
  obtain ⟨out, stacked₁, plain₁, same₁, background₁, piece₁⟩ := wmNewwin_spec stacked
  obtain ⟨-, stacked₂, -, same₂, background₂, piece₂⟩ := wmNewwin_spec stacked₁
  rw [List.append_assoc] at stacked₂
  have split : Stacked (wnNewwin s).2 (order ++ (wnNewwin s).1 :: [newBorder s]) := stacked₂
  have back : (wnNewwin s).2.backgroundw ∈ order := by
    have eq : (wnNewwin s).2.backgroundw = s.backgroundw := background₂.trans background₁
    rw [eq]
    exact stacked.background
  have dark := split.cover_behind back (List.mem_cons_self ..)
  have record := same₂ _ (List.mem_append_right order (List.mem_singleton_self _))
  have fullscreen : ((wnNewwin s).2.win (wnNewwin s).1).fullscreen = false :=
    (congrArg Window.fullscreen record).trans plain₁
  refine ⟨stacked₂, fun v listed => ?_, background₂.trans background₁, piece₂.trans piece₁,
    ⟨fun _ => bare_of_cover split.tidy dark, fun _ => dark, fullscreen⟩, out⟩
  exact (same₂ v (List.mem_append_left _ listed)).trans (same₁ v listed)

/-- Windows whose records and pieces are as they were. -/
theorem noted_of_same (win : ∀ v ∈ l, s'.win v = s.win v) (piece : s'.piece = s.piece) :
    Noted l s s' := by
  constructor
  case told =>
    intro v listed quiet
    rw [win v listed] at quiet ⊢
    exact ⟨quiet, rfl, fun _ _ => congrFun piece _⟩
  case marked =>
    intro v listed marked
    rwa [win v listed]
  case gained =>
    intro v listed _ x y
    exact Nat.le_of_eq (total_congr (.of_eq (congrArg Window.ys (win v listed))) fun _ _ =>
      congrFun piece _)
  case shadow => exact fun v listed => by rw [win v listed]
  case fullscreen => exact fun v listed => by rw [win v listed]
  case inchan => exact fun v listed => by rw [win v listed]; exact id

theorem wmFreewin_noted (out : w ∉ l) : Noted l s (wmFreewin (some w) s) :=
  noted_of_same (fun _ listed => update_of_ne (ne_of_mem_of_not_mem listed out) ..) rfl

theorem detach_noted : Noted l s (wmDetachgf w (wmDetachtx w s)) := by
  have noted : Noted l s (wmDetachtx w s) :=
    noted_modify (fun _ => rfl) (fun _ => rfl) (fun _ => rfl) (fun _ => rfl) (fun _ => rfl)
      fun _ => id
  refine noted.trans (noted_modify ?_ ?_ ?_ ?_ ?_ ?_)
  case refine_6 =>
    intro win other
    split at other
    next same => exact absurd same other
    next => exact absurd rfl other
  all_goals
    intro win
    split <;> rfl

/-- Detaching the ports of a window does not move it. -/
theorem detach_stacked (stacked : Stacked s order) :
    Stacked (wmDetachgf w (wmDetachtx w s)) order := by
  have first : Stacked (wmDetachtx w s) order :=
    stacked.modify_ports (fun _ => rfl) (fun _ => rfl) (fun _ => rfl) fun _ => rfl
  refine first.modify_ports ?_ ?_ ?_ ?_
  all_goals
    intro win
    split <;> rfl

theorem wnDestroy_console {kill : Bool} (console : s.winConsole = some w) :
    wnDestroy (some w) kill s = some s := by
  rw [wnDestroy, if_pos console]

/-- The background window only loses its client. -/
theorem wnDestroy_background {kill : Bool} (stacked : Stacked s order)
    (other : s.winConsole ≠ some s.backgroundw) :
    ∃ s', wnDestroy (some s.backgroundw) kill s = some s' ∧ Stacked s' order ∧ Noted l s s' ∧
      s'.backgroundw = s.backgroundw := by
  cases kill with
  | true =>
    refine ⟨wmDetachgf s.backgroundw (wmDetachtx s.backgroundw s), ?_, detach_stacked stacked,
      detach_noted, rfl⟩
    simp only [wnDestroy, if_neg other, if_true, Option.bind_eq_bind, Option.bind_some]
    rw [if_pos]
    rfl
  | false =>
    refine ⟨s, ?_, stacked, .refl s, rfl⟩
    simp [wnDestroy, other]

/-- Both windows of a pair are taken out of the stack and freed. -/
theorem wnDestroy_spec {kill : Bool} (stacked : Stacked s (pre ++ w :: b :: post))
    (plain : w ≠ s.backgroundw) (plain' : b ≠ s.backgroundw) (other : s.winConsole ≠ some w) :
    ∃ s', wnDestroy (some w) kill s = some s' ∧ Stacked s' (pre ++ post) ∧
      Noted (pre ++ post) s s' ∧ s'.backgroundw = s.backgroundw := by
  obtain ⟨s₁, eq₁, stacked₁, kept₁⟩ := wnDerez_spec stacked
  have split₁ : Stacked s₁ ((pre ++ post) ++ w :: [b]) := by simpa using stacked₁
  have back : s₁.backgroundw ∈ pre ++ post := by
    have listed := split₁.background
    rw [List.mem_append] at listed
    rcases listed with there | last
    · exact there
    · rw [kept₁.backgroundw] at last
      rcases List.mem_cons.mp last with same | same
      · exact absurd same.symm plain
      · exact absurd (List.mem_singleton.mp same).symm plain'
  have detached : ∃ s₂, (if kill then wmDetachgf w (wmDetachtx w s₁) else s₁) = s₂ ∧
      Stacked s₂ ((pre ++ post) ++ w :: [b]) ∧ Noted (pre ++ post) s₁ s₂ ∧
      s₂.backgroundw = s₁.backgroundw := by
    refine ⟨_, rfl, ?_⟩
    cases kill with
    | true => exact ⟨detach_stacked split₁, detach_noted, rfl⟩
    | false => exact ⟨split₁, .refl s₁, rfl⟩
  obtain ⟨s₂, eq₂, split₂, noted₂, background₂⟩ := detached
  rw [← background₂] at back
  have next₂ : wmInback s₂ (some w) = some b := wmInback_eq split₂
  have out := split₂.chain.not_mem
  have freed := wmFreewin_spec split₂ back
  have background₃ : (wmFreewin (some w) s₂).backgroundw = s₂.backgroundw := rfl
  have freed' : Stacked (wmFreewin (some b) (wmFreewin (some w) s₂)) ((pre ++ post) ++ []) :=
    wmFreewin_spec freed (background₃ ▸ back)
  have out' := freed.chain.not_mem
  rw [List.append_nil] at freed' out'
  refine ⟨wmFreewin (some b) (wmFreewin (some w) s₂), ?_, freed', ?_, ?_⟩
  · rw [wnDestroy, if_neg other, if_neg plain]
    simp only [eq₁, Option.bind_eq_bind, Option.bind_some, eq₂, next₂]
    rw [if_neg]
    rw [background₂, kept₁.backgroundw]
    exact plain
  · have first : Noted (pre ++ post) s₂ (wmFreewin (some w) s₂) :=
      wmFreewin_noted fun listed => out (List.mem_append_left _ listed)
    exact (Noted.of_kept kept₁).trans (noted₂.trans (first.trans (wmFreewin_noted out')))
  · exact background₂.trans kept₁.backgroundw

/-- The console is in front when it was created. -/
theorem wnInitconsole_spec (stacked : Stacked s order) (r : Rect) :
    ∃ s', wnInitconsole r s = some s' ∧
      Stacked s' ((wnNewwin s).1 :: newBorder s :: order) ∧
      Noted order s s' ∧ s'.backgroundw = s.backgroundw ∧ Unseen s' (wnNewwin s).1 := by
  obtain ⟨stacked₁, same₁, background₁, piece₁, unseen₁, -⟩ := wnNewwin_spec stacked
  have stacked₁' : Stacked { (wnNewwin s).2 with winConsole := some (wnNewwin s).1 }
      (order ++ (wnNewwin s).1 :: [newBorder s]) :=
    ⟨stacked₁.chain, ⟨stacked₁.tidy.perm, stacked₁.tidy.nodup, stacked₁.tidy.xSorted, stacked₁.tidy.sorted,
      stacked₁.tidy.proper, stacked₁.tidy.alone, stacked₁.tidy.sound, stacked₁.tidy.taken⟩,
      fun x y => (stacked₁.tiles x y).congr fun _ _ => ⟨rfl, rfl⟩, stacked₁.wins, stacked₁.taken,
      stacked₁.bare, stacked₁.background, stacked₁.backdrop, stacked₁.dummy⟩
  have back : (wnNewwin s).2.backgroundw ∈ order := by
    rw [background₁]
    exact stacked.background
  have stacked₂ := stacked₁'.rewrite (f := fun win =>
    { win with titled := true, textport := true, txport := 0, inchan := -1 }) back rfl rfl rfl
  generalize hs₂ : State.modify _ (wnNewwin s).1 _ = s₂ at stacked₂
  have background₂ : s₂.backgroundw = s.backgroundw := by
    rw [← hs₂]
    exact background₁
  have out : ∀ v ∈ order, v ≠ (wnNewwin s).1 := fun v listed =>
    (List.nodup_append.mp stacked₁.chain.nodup).2.2 v listed _ (by simp)
  have noted₂ : Noted order s s₂ := by
    refine noted_of_same (fun v listed => ?_) ?_
    · rw [← hs₂, modify_win_other (out v listed)]
      exact same₁ v listed
    · rw [← hs₂]
      exact piece₁
  have unseen₂ : Unseen s₂ (wnNewwin s).1 := by
    have ys : (s₂.win (wnNewwin s).1).ys = ((wnNewwin s).2.win (wnNewwin s).1).ys := by
      rw [← hs₂, modify_win_self]
    have flags : (s₂.win (wnNewwin s).1).newpieces =
          ((wnNewwin s).2.win (wnNewwin s).1).newpieces ∧
        (s₂.win (wnNewwin s).1).redisplay = ((wnNewwin s).2.win (wnNewwin s).1).redisplay ∧
        (s₂.win (wnNewwin s).1).fullscreen = ((wnNewwin s).2.win (wnNewwin s).1).fullscreen := by
      rw [← hs₂, modify_win_self]
      exact ⟨rfl, rfl, rfl⟩
    have piece : s₂.piece = (wnNewwin s).2.piece := by
      rw [← hs₂]
      rfl
    refine ⟨fun quiet => ?_, fun quiet x y => ?_, flags.2.2.trans unseen₁.fullscreen⟩
    · rw [ys]
      exact unseen₁.told (flags.1 ▸ quiet)
    · rw [← unseen₁.gained (flags.2.1 ▸ quiet) x y]
      exact total_congr (.of_eq ys) fun p _ => congrFun piece p
  have plain : (wnNewwin s).1 ≠ s₂.backgroundw := stacked₂.not_background (by
    rw [background₂]
    exact stacked.background)
  have split₂ : Stacked s₂ ((order ++ [(wnNewwin s).1]) ++ newBorder s :: []) := by simpa using stacked₂
  have plain' : newBorder s ≠ s₂.backgroundw := split₂.not_background (by
    rw [background₂]
    exact List.mem_append_left _ stacked.background)
  obtain ⟨s₃, eq₃, stacked₃, noted₃, background₃⟩ := wnResize_spec (l := order ++ [(wnNewwin s).1]) stacked₂
    plain plain' ⟨toShort (r.xmin + 2), toShort (r.xmax - 2), toShort (r.ymin + 2), toShort (r.ymax - 2)⟩
  obtain ⟨s₄, eq₄, stacked₄, kept₄⟩ := wnPop_spec stacked₃
  rw [List.append_nil] at stacked₄
  have noted₄ := noted₃.trans (.of_kept kept₄)
  have old : Noted order s₂ s₄ := noted₄.mono fun v listed => List.mem_append_left _ listed
  have new : Noted [(wnNewwin s).1] s₂ s₄ := noted₄.mono fun v listed =>
    List.mem_append_right _ listed
  refine ⟨s₄, ?_, stacked₄, noted₂.trans old, ?_, unseen₂.noted new⟩
  · rw [wnInitconsole]
    simp only [hs₂, eq₃, Option.bind_eq_bind, Option.bind_some, eq₄]
  · rw [kept₄.backgroundw, background₃, background₂]

end

end Irix.Mex
