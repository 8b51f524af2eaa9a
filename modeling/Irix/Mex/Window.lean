import Irix.Lib.Linked
import Irix.Lib.Pool
import Irix.Lib.Rect
import Mathlib.Algebra.GroupWithZero.Nat
import Mathlib.Logic.Function.Basic
import Mathlib.Tactic.Common

/-! # Windows and their pieces

The window module of the window manager: a list of windows from front to back,
each with the pieces of the screen it shows.  A piece is in two lists of its
window, one sorted by column and one by row; both are changed by `addpiece` and
`removepiece` alone.  The links between windows are kept as pointers, the two
lists of pieces as lists.
-/

namespace Irix.Mex

open Function
open Lib (Rect Pool)
open Lib.Linked (Dlist)

abbrev PieceId := Nat

abbrev WinId := Nat

def xmaxscreen : Int := 1023

def ymaxscreen : Int := 767

def maxcols : Int := 80

def maxrows : Int := 40

def mincols : Int := 10

def minrows : Int := 2

def xborder : Int := 4

def yborder : Int := 4

def txborder : Int := 2

/-- Conversion to a C `short`. -/
def toShort (n : Int) : Int := n.bmod 65536

/-- What a window's record holds.  The flags are bits of `w_state`. -/
structure Window where
  dummy : Bool := false
  redisplay : Bool := false
  newpieces : Bool := false
  textport : Bool := false
  fullscreen : Bool := false
  rect : Rect := ⟨0, 0, 0, 0⟩
  ncols : Int := 0
  nrows : Int := 0
  /-- The pieces from `w_xhead` along `w_xnext`. -/
  xs : List PieceId := []
  /-- The pieces from `w_yhead` along `w_ynext`. -/
  ys : List PieceId := []
  shadow : BitVec 32 := 0
  txport : Int := 0
  inchan : Int := 0
  gfnum : Int := 0
  /-- `w_title[0]` is not zero. -/
  titled : Bool := false

/-- Measures of the fonts, in pixels. -/
structure Font where
  charwidth : Int
  charheight : Int
  titleheight : Int

structure State where
  font : Font
  piece : PieceId → Rect
  /-- `win_piecefreelist` and the memory behind it. -/
  pieces : Pool
  win : WinId → Window
  /-- `win_freelist` and the memory behind it. -/
  wins : Pool
  /-- `win_first`, `win_last` and the links of the windows. -/
  list : Dlist WinId
  backgroundw : WinId
  winConsole : Option WinId

namespace State

def modify (s : State) (w : WinId) (f : Window → Window) : State :=
  { s with win := update s.win w (f (s.win w)) }

def setPiece (s : State) (p : PieceId) (r : Rect) : State :=
  { s with piece := update s.piece p r }

end State

/-! ## Pieces -/

/-- The piece behind `p` in a list. -/
def nextIn (l : List PieceId) (p : PieceId) : Option PieceId :=
  ((l.dropWhile fun q => decide (q ≠ p)).drop 1).head?

def columnLess (r : PieceId → Rect) (wp p : PieceId) : Bool :=
  decide ((r p).xmin < (r wp).xmin)

def sameColumnLess (r : PieceId → Rect) (wp p : PieceId) : Bool :=
  decide ((r p).xmin = (r wp).xmin ∧ (r p).ymin < (r wp).ymin)

/-- The two loops of `addpiece` over one of the lists: past the pieces in lesser
    columns, then past those of the same column in lesser rows. -/
def sortIn (r : PieceId → Rect) (wp : PieceId) (l : List PieceId) : List PieceId :=
  l.takeWhile (columnLess r wp) ++
    ((l.dropWhile (columnLess r wp)).takeWhile (sameColumnLess r wp) ++
      wp :: (l.dropWhile (columnLess r wp)).dropWhile (sameColumnLess r wp))

def addpiece (wp : PieceId) (w : WinId) (s : State) : State :=
  s.modify w fun win =>
    { win with
      xs := sortIn s.piece wp win.xs
      ys := sortIn (fun p => (s.piece p).flip) wp win.ys
      newpieces := true }

def removepiece (wp : PieceId) (w : WinId) (s : State) : State :=
  s.modify w fun win =>
    { win with xs := win.xs.erase wp, ys := win.ys.erase wp, newpieces := true }

def wmFreepiece (wp : PieceId) (s : State) : State :=
  { s with pieces := s.pieces.release wp }

def wmNewpiece (w : WinId) (r : Rect) (s : State) : State :=
  addpiece s.pieces.alloc.1 w
    ({ s with pieces := s.pieces.alloc.2 }.setPiece s.pieces.alloc.1 r)

/-- Take the piece out, change it and sort it in again. -/
def readd (wp : PieceId) (r : Rect) (w : WinId) (s : State) : State :=
  addpiece wp w ((removepiece wp w s).setPiece wp r)

/-! ## Coalescing -/

/-- The pieces a pass walks over and the way it looks at them: the Y pass is the
    X pass with the axes exchanged. -/
structure Pass where
  chain : Window → List PieceId
  turn : Rect → Rect

def xPass : Pass := { chain := Window.xs, turn := id }

def yPass : Pass := { chain := Window.ys, turn := Rect.flip }

/-- One pass of `wm_coalesce` from the piece `wp` on. -/
def coalesceFrom (pass : Pass) (w : WinId) : Nat → PieceId → State → Option State
  | fuel, wp, s =>
    match nextIn (pass.chain (s.win w)) wp, fuel with
    | none, _ => some s
    | some _, 0 => none
    | some wpgone, fuel + 1 =>
      let a := pass.turn (s.piece wp)
      let b := pass.turn (s.piece wpgone)
      if a.xmin = b.xmin ∧ a.ymax = b.ymin - 1 then
        if a.xmax = b.xmax then
          coalesceFrom pass w fuel wp <| wmFreepiece wpgone <| removepiece wpgone w <|
            readd wp (pass.turn { a with ymax := b.ymax }) w s
        else if a.xmax < b.xmax then
          coalesceFrom pass w fuel wp <| readd wpgone (pass.turn { b with xmin := a.xmax + 1 }) w <|
            readd wp (pass.turn { a with ymax := b.ymax }) w s
        else
          coalesceFrom pass w fuel wp <|
            readd wpgone (pass.turn { a with xmin := b.xmax + 1 }) w <|
            readd wp (pass.turn { a with ymax := b.ymax, xmax := b.xmax }) w s
      else
        coalesceFrom pass w fuel wpgone s

/-- Every turn of a pass takes some width away or goes on to the next piece. -/
def coalesceFuel (pass : Pass) (w : WinId) (s : State) : Nat :=
  let ys := (s.win w).ys
  (ys.map fun p => ((pass.turn (s.piece p)).xmax - (pass.turn (s.piece p)).xmin + 1).toNat).sum *
    (ys.length + 1) + ys.length

def coalescePass (pass : Pass) (w : WinId) (s : State) : Option State :=
  match (pass.chain (s.win w)).head? with
  | none => none
  | some wp => coalesceFrom pass w (coalesceFuel pass w s) wp s

def wmCoalesce (w : WinId) (s : State) : Option State :=
  if (s.win w).ys = [] then some s
  else do
    let s ← coalescePass xPass w s
    coalescePass yPass w s

/-! ## Promotion -/

/-- The loop of `wm_promote` over the pieces of `w2`.  The flag is
    `affectedthisone`. -/
def splitPieces (w1 w2 : WinId) : Nat → Option PieceId → Bool → State → Option (State × Bool)
  | _, none, affected, s => some (s, affected)
  | 0, some _, _, _ => none
  | fuel + 1, some wp, affected, s =>
    let r := s.piece wp
    let r1 := (s.win w1).rect
    if r.Apart r1 then
      splitPieces w1 w2 fuel (nextIn (s.win w2).ys wp) affected s
    else if r.ymin < r1.ymin then
      -- w1's bottom edge
      let s := wmNewpiece w2 { r with ymin := r1.ymin }
        (s.setPiece wp { r with ymax := r1.ymin - 1 })
      splitPieces w1 w2 fuel (nextIn (s.win w2).ys wp) affected s
    else if r.ymax > r1.ymax then
      -- w1's top edge
      splitPieces w1 w2 fuel (some wp) affected <|
        wmNewpiece w2 { r with ymin := r1.ymax + 1 } (s.setPiece wp { r with ymax := r1.ymax })
    else if r.xmin < r1.xmin then
      -- w1's left edge
      let s := wmNewpiece w2 { r with xmin := r1.xmin }
        (s.setPiece wp { r with xmax := r1.xmin - 1 })
      splitPieces w1 w2 fuel (nextIn (s.win w2).ys wp) affected s
    else if r.xmax > r1.xmax then
      -- w1's right edge
      splitPieces w1 w2 fuel (some wp) affected <|
        wmNewpiece w2 { r with xmin := r1.xmax + 1 } (s.setPiece wp { r with xmax := r1.xmax })
    else
      splitPieces w1 w2 fuel (nextIn (s.win w2).ys wp) true <|
        addpiece wp w1 (removepiece wp w2 s)

/-- A piece is cut at most once along each edge. -/
def splitFuel (w2 : WinId) (s : State) : Nat := 9 * (s.win w2).ys.length

/-- The loop of `wm_promote` over the windows from `w2` on.  The flags are
    `affected` and whether `w1` was met before the end of the list. -/
def promoteOver (w1 : WinId) : Nat → Option WinId → Bool → State → Option (State × Bool × Bool)
  | 0, _, _, _ => none
  | _ + 1, none, affected, s => some (s, affected, false)
  | fuel + 1, some w2, affected, s =>
    if w2 = w1 then
      some (s, affected, true)
    else if (s.win w2).rect.Apart (s.win w1).rect then
      promoteOver w1 fuel (s.list.next w2) affected s
    else do
      let (s, affectedthisone) ← splitPieces w1 w2 (splitFuel w2 s) (s.win w2).ys.head? false s
      let s ← if affectedthisone then wmCoalesce w2 s else some s
      promoteOver w1 fuel (s.list.next w2) (affected || affectedthisone) s

/-- Take `w1` out of the list and link it in before `w2`. -/
def relink (w1 w2 : WinId) (s : State) : State :=
  let list := s.list.remove w1
  { s with list := list.insert w1 (list.prev w2) (some w2) }

/-- As many windows as were ever made. -/
def State.windows (s : State) : Nat := s.wins.fresh

def wmPromote (w1 w2 : Option WinId) (s : State) : Option State :=
  match w1, w2 with
  | some w1, some w2 =>
    if s.list.first = some w1 ∨ w1 = w2 then some s
    else do
      let (s, affected, met) ← promoteOver w1 (s.windows + 1) (some w2) false s
      if met then
        let s := relink w1 w2 s
        if affected then
          let s ← wmCoalesce w1 s
          some (s.modify w1 fun win => { win with redisplay := true })
        else some s
      else some s
  | _, _ => some s

/-! ## The exported functions -/

def wmNewwin (s : State) : WinId × State :=
  let w := s.wins.alloc.1
  let win : Window :=
    { textport := true
      ncols := maxcols
      nrows := maxrows
      rect := ⟨0, toShort (maxcols * s.font.charwidth + 2 * txborder),
        0, toShort (maxrows * s.font.charheight + 2 * txborder)⟩
      txport := -1
      inchan := -1
      gfnum := -1 }
  (w, { s with
    wins := s.wins.alloc.2
    win := update s.win w win
    list := s.list.insert w s.list.last none })

def screen : Rect := ⟨0, xmaxscreen, 0, ymaxscreen⟩

/-- The state with the background window and its one piece. -/
def wmInit (font : Font) : State :=
  let w := (Pool.alloc {}).1
  let wp := (Pool.alloc {}).1
  { font := font
    piece := fun _ => screen
    pieces := (Pool.alloc {}).2
    win := update (fun _ => {}) w
      { dummy := true, rect := screen, xs := [wp], ys := [wp], txport := -1, inchan := -1,
        gfnum := -1 }
    wins := (Pool.alloc {}).2
    list := ⟨some w, some w, fun _ => none, fun _ => none⟩
    backgroundw := w
    winConsole := none }

def wmPop (w : Option WinId) (s : State) : Option State :=
  wmPromote w s.list.first s

/-- Promote the windows in back of `w` over it, up to one where the loop stops. -/
def promoteNext (stop : Window → Bool) (w : WinId) : Nat → State → Option State
  | fuel, s =>
    match s.list.next w, fuel with
    | none, _ => some s
    | some nw, fuel =>
      if stop (s.win nw) then some s
      else match fuel with
        | 0 => none
        | fuel + 1 => do
          let s ← wmPromote (some nw) (some w) s
          promoteNext stop w fuel s

def wmPush (w : Option WinId) (s : State) : Option State :=
  match w with
  | none => some s
  | some w => promoteNext Window.dummy w s.windows s

def wmDerez (w : Option WinId) (s : State) : Option State :=
  match w with
  | none => some s
  | some w => promoteNext (fun _ => false) w s.windows s

def wmFreewin (w : Option WinId) (s : State) : State :=
  match w with
  | none => s
  | some w =>
    { s with
      list := (s.list.remove w).clear w
      win := update s.win w {}
      wins := s.wins.release w }

/-- The first dummy window from `nw` on. -/
def findDummy (s : State) : Nat → Option WinId → Option (Option WinId)
  | _, none => some none
  | 0, some _ => none
  | fuel + 1, some nw =>
    if (s.win nw).dummy then some (some nw) else findDummy s fuel (s.list.next nw)

def clamp (low high n : Int) : Int :=
  if n < low then low else if n > high then high else n

/-- The record of a window of another size. -/
def resized (font : Font) (r : Rect) (win : Window) : Window :=
  { win with
    rect := r
    ncols := clamp mincols maxcols <| toShort <|
      (r.xmax - r.xmin - xborder * 2 + font.charwidth - 1).tdiv font.charwidth
    -- the rows are counted with the width of a character too
    nrows := clamp minrows maxrows <| toShort <|
      (r.ymax - r.ymin - yborder * 2 + font.charheight - 1).tdiv font.charwidth }

def wmResize (w : Option WinId) (r : Rect) (s : State) : Option State :=
  match w with
  | none => some s
  | some w => do
    match ← findDummy s s.windows (s.list.next w) with
    | some _ => some s
    | none => some (s.modify w (resized s.font r))

/-- The record of a window with its lower left corner elsewhere. -/
def moved (xmin ymin : Int) (win : Window) : Window :=
  let dx := toShort (xmin - win.rect.xmin)
  let dy := toShort (ymin - win.rect.ymin)
  { win with
    rect := ⟨toShort (win.rect.xmin + dx), toShort (win.rect.xmax + dx),
      toShort (win.rect.ymin + dy), toShort (win.rect.ymax + dy)⟩ }

def wmMove (w : Option WinId) (xmin ymin : Int) (s : State) : Option State :=
  match w with
  | none => some s
  | some w => do
    match ← findDummy s s.windows (s.list.next w) with
    | some _ => some s
    | none => some (s.modify w (moved xmin ymin))

def wmInfront (s : State) (w : Option WinId) : Option WinId := w.bind s.list.prev

def wmInback (s : State) (w : Option WinId) : Option WinId := w.bind s.list.next

end Irix.Mex
