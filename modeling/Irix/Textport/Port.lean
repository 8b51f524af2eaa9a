import Irix.Lib.Run
import Mathlib.Logic.Function.Basic

/-! # The graphics textport

A row keeps its characters in a buffer of which only the first `r_maxcol` are on
the display.  The buffers move with their rows, and one that is scrolled off or
deleted comes back as the buffer of an empty row, its old bytes still in it.
-/

namespace Irix.Textport

open Function

/-- The space character. -/
def SPACE : UInt8 := 32
/-- The escape character. -/
def ESC : UInt8 := 27

/-- A line of text on the screen. -/
structure Row where
  data : Nat → UInt8
  maxcol : Nat

/-- What the arguments being collected are for. -/
inductive Cmd where
  | read0
  | read9
  | ready
  | read7
  deriving DecidableEq

/-- The state bits of `tx_state`. -/
inductive State where
  | normal
  | escape
  | collect
  deriving DecidableEq

/-- A text port. -/
structure Txport where
  cols : Nat
  rows : Nat
  row : Nat
  col : Nat
  /-- Characters are stored in reverse video. -/
  curcolor : Bool
  state : State
  cmd : Cmd
  count : Nat
  readbuf : Nat → UInt8
  display : Nat → Row

/-! ## Lines -/

/-- The loop of `tx_adjust`, for so many columns. -/
def Row.blank (rp : Row) : Nat → Row
  | 0 => rp
  | n + 1 => Row.blank ⟨update rp.data rp.maxcol SPACE, rp.maxcol + 1⟩ n

/-- Adjust display info, if we moved cursor into a line which previously
    contained some data. -/
def txAdjust (tx : Txport) : Txport :=
  let rp := tx.display tx.row
  { tx with display := update tx.display tx.row (rp.blank (tx.col - rp.maxcol)) }

/-- The loop of `tx_insertln`: `rp` and the rows above it down to `line` take
    the row before them. -/
def shiftDown (line : Nat) : Nat → (Nat → Row) → Nat → Row
  | 0, display => display
  | rp + 1, display =>
    if rp + 1 > line then shiftDown line rp (update display (rp + 1) (display rp)) else display

/-- Insert a line in the screen moving the current and all lower lines down one. -/
def txInsertln (tx : Txport) (line : Nat) : Txport :=
  let savedata := (tx.display (tx.rows - 1)).data
  { tx with display := update (shiftDown line (tx.rows - 1) tx.display) line ⟨savedata, 0⟩ }

/-- The loop of `tx_deleteln`, for so many rows from `rp` on. -/
def shiftUp : Nat → Nat → (Nat → Row) → Nat → Row
  | 0, _, display => display
  | n + 1, rp, display => shiftUp n (rp + 1) (update display rp (display (rp + 1)))

/-- Delete a line from the screen moving all lower lines up one. -/
def txDeleteln (tx : Txport) (line : Nat) : Txport :=
  let savedata := (tx.display line).data
  { tx with
    display := update (shiftUp (tx.rows - 1 - line) line tx.display) (tx.rows - 1) ⟨savedata, 0⟩ }

/-- Move cursor up one line, scrolling if needed (and allowed). -/
def txUpln (tx : Txport) (scroll : Bool) : Txport :=
  if tx.row = 0 then
    if scroll then
      let tx := txInsertln tx 0
      if tx.col ≠ 0 then txAdjust tx else tx
    else tx
  else txAdjust { tx with row := tx.row - 1 }

/-- Move the cursor down one line, scrolling if needed (and allowed). -/
def txDownln (tx : Txport) (scroll : Bool) : Txport :=
  if tx.row = tx.rows - 1 then
    if scroll then
      let tx := txDeleteln tx 0
      if tx.col ≠ 0 then txAdjust tx else tx
    else tx
  else txAdjust { tx with row := tx.row + 1 }

/-! ## Characters -/

/-- A character of a font with `defontNc` characters. -/
def fontChar (defontNc : Nat) (c : UInt8) : UInt8 :=
  if c.toNat ≥ defontNc then c &&& 0x7f else c

/-- The byte that stands for `c` in a row. -/
def stored (defontNc : Nat) (reverse : Bool) (c : UInt8) : UInt8 :=
  if defontNc ≤ 128 then (if reverse then c &&& 0x7f ||| 0x80 else c &&& 0x7f) else c

/-- A character is stored, and the cursor moves to the new column. -/
def txStore (defontNc : Nat) (tx : Txport) (c : UInt8) : Txport :=
  let rp := tx.display tx.row
  let data := update rp.data tx.col (stored defontNc tx.curcolor c)
  let maxcol := if tx.col + 1 > rp.maxcol then tx.col + 1 else rp.maxcol
  { tx with display := update tx.display tx.row ⟨data, maxcol⟩, col := tx.col + 1 }

/-- A printable character, and automatic margins. -/
def txPrint (defontNc : Nat) (tx : Txport) (c : UInt8) : Txport :=
  let tx := txStore defontNc tx c
  if tx.col = tx.cols then txDownln { tx with col := 0 } true else tx

/-- A control character. -/
def txControl (tx : Txport) (c : UInt8) : Txport :=
  if c = ESC then { tx with state := .escape }
  else if c = 8 then
    if tx.col ≠ 0 then txAdjust { tx with col := tx.col - 1 } else tx
  else if c = 9 then
    let tx := { tx with col := tx.col + (8 - tx.col % 8) }
    txAdjust (if tx.col ≥ tx.cols then txDownln { tx with col := 0 } true else tx)
  else if c = 10 then txDownln tx true
  else if c = 13 then { tx with col := 0 }
  else tx

/-- The rows from `tx_row` on are emptied. -/
def clearPage (tx : Txport) : Txport :=
  { tx with display := fun r =>
      if tx.row ≤ r ∧ r < tx.rows then ⟨(tx.display r).data, 0⟩ else tx.display r }

def collect (tx : Txport) (cmd : Cmd) (count : Nat) : Txport :=
  { tx with state := .collect, cmd, count }

/-- The character after an escape. -/
def txEscape (tx : Txport) (c : UInt8) : Txport :=
  let tx := { tx with state := .normal }
  if c = 0x30 then collect tx .read0 1
  else if c = 0x37 then collect tx .read7 2
  else if c = 0x39 then collect tx .read9 1
  else if c = 0x41 then txUpln tx false
  else if c = 0x42 then txDownln tx false
  else if c = 0x43 then
    if tx.col < tx.cols - 1 then txAdjust { tx with col := tx.col + 1 } else tx
  else if c = 0x44 then
    if tx.col ≠ 0 then txAdjust { tx with col := tx.col - 1 } else tx
  else if c = 0x48 then txAdjust { tx with row := 0, col := 0 }
  else if c = 0x49 then txUpln tx true
  else if c = 0x76 then clearPage { tx with row := 0, col := 0 }
  else if c = 0x4a then clearPage tx
  else if c = 0x4b then
    { tx with display := update tx.display tx.row ⟨(tx.display tx.row).data, tx.col⟩ }
  else if c = 0x4c then txInsertln tx tx.row
  else if c = 0x4d then txDeleteln tx tx.row
  else if c = 0x59 then collect tx .ready 2
  else tx

/-- The arguments of a cursor move are there. -/
def txReady (tx : Txport) : Txport :=
  let c := (tx.readbuf 1).toNat
  if c < 32 ∨ c ≥ 32 + tx.rows then tx
  else
    let tx := { tx with row := c - 32 }
    let c := (tx.readbuf 0).toNat
    if c < 32 ∨ c ≥ 32 + tx.cols then tx
    else txAdjust { tx with col := c - 32 }

/-- A character of the arguments of an escape. -/
def txCollect (tx : Txport) (c : UInt8) : Txport :=
  let tx := { tx with count := tx.count - 1, readbuf := update tx.readbuf (tx.count - 1) c }
  if tx.count ≠ 0 then tx
  else
    let tx := match tx.cmd with
      | .read0 => { tx with curcolor := false }
      | .read9 => { tx with curcolor := true }
      | .read7 => { tx with curcolor := false }
      | .ready => txReady tx
    { tx with state := .normal }

/-- A turn of the loop of `tx_addchars`.  At its head `rp` is always the row of
    the cursor. -/
def txAddchar (defontNc : Nat) (tx : Txport) (c : UInt8) : Txport :=
  let c := fontChar defontNc c
  match tx.state with
  | .normal => if c ≥ SPACE then txPrint defontNc tx c else txControl tx c
  | .escape => txEscape tx c
  | .collect => txCollect tx c

/-- Add some characters to the display. -/
def txAddchars (defontNc : Nat) (tx : Txport) (cp : List UInt8) : Txport :=
  cp.foldl (txAddchar defontNc) tx

/-- A port of this size after `tx_init`, with whatever is in its buffers.  Its
    colors may be those of the console. -/
def txInit (rows cols : Nat) (curcolor : Bool) (readbuf : Nat → UInt8)
    (data : Nat → Nat → UInt8) : Txport :=
  ⟨cols, rows, 0, 0, curcolor, .normal, .read0, 0, readbuf, fun r => ⟨data r, 0⟩⟩

end Irix.Textport
