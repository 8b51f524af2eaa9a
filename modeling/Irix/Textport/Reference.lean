import Irix.Textport.Port

/-! # The textport is a terminal

The reference is a screen of cells with a cursor, and a parser that makes
commands of bytes.  A textport shows the same screen as long as the characters
that a row keeps between its `r_maxcol` and the cursor are blanks.
-/

namespace Irix.Textport

open Function Lib.Run

/-! ## Commands -/

/-- What a terminal is told to do. -/
inductive Command where
  | print (c : UInt8)
  | left
  | tab
  | newline
  | ret
  | up
  | down
  | right
  | home
  | reverseIndex
  | clearAll
  | clearPage
  | clearLine
  | insertLine
  | deleteLine
  /-- Move the cursor, the arguments as they were sent. -/
  | move (row col : UInt8)
  | nothing
  deriving DecidableEq

/-- Where the parser is: after an escape, or with arguments to come. -/
inductive Parser where
  | ground
  | escape
  /-- An escape sequence that does nothing to the cells has so many bytes to come. -/
  | skip (left : Nat)
  | moveRow
  | moveCol (row : UInt8)
  deriving DecidableEq

/-- The command for a control character. -/
def control (c : UInt8) : Command :=
  if c = 8 then .left
  else if c = 9 then .tab
  else if c = 10 then .newline
  else if c = 13 then .ret
  else .nothing

/-- The command for a letter after an escape. -/
def letter (c : UInt8) : Command :=
  if c = 0x41 then .up
  else if c = 0x42 then .down
  else if c = 0x43 then .right
  else if c = 0x44 then .left
  else if c = 0x48 then .home
  else if c = 0x49 then .reverseIndex
  else if c = 0x76 then .clearAll
  else if c = 0x4a then .clearPage
  else if c = 0x4b then .clearLine
  else if c = 0x4c then .insertLine
  else if c = 0x4d then .deleteLine
  else .nothing

def Parser.feed (p : Parser) (c : UInt8) : Parser × Command :=
  match p with
  | .ground =>
    if c ≥ SPACE then (.ground, .print c)
    else if c = ESC then (.escape, .nothing)
    else (.ground, control c)
  | .escape =>
    if c = 0x30 ∨ c = 0x39 then (.skip 1, .nothing)
    else if c = 0x37 then (.skip 2, .nothing)
    else if c = 0x59 then (.moveRow, .nothing)
    else (.ground, letter c)
  | .skip left => (if left = 1 then .ground else .skip (left - 1), .nothing)
  | .moveRow => (.moveCol c, .nothing)
  | .moveCol row => (.ground, .move row c)

/-! ## The reference screen -/

/-- A screen of cells, the parser of what is sent to it, and the cursor. -/
structure Screen where
  rows : Nat
  cols : Nat
  parser : Parser
  row : Nat
  col : Nat
  cells : Nat → Nat → UInt8

namespace Screen

def blank (rows cols : Nat) : Screen := ⟨rows, cols, .ground, 0, 0, fun _ _ => SPACE⟩

/-- The lines from `line` on move down by one, and `line` becomes blank. -/
def insertLine (s : Screen) (line : Nat) : Screen :=
  { s with cells := fun r =>
      if r < line then s.cells r else if r = line then fun _ => SPACE else s.cells (r - 1) }

/-- The lines behind `line` move up by one, and the last becomes blank. -/
def deleteLine (s : Screen) (line : Nat) : Screen :=
  { s with cells := fun r =>
      if r < line then s.cells r
      else if r = s.rows - 1 then fun _ => SPACE
      else s.cells (r + 1) }

/-- The cursor moves down, and at the last line the screen scrolls. -/
def newline (s : Screen) : Screen :=
  if s.row = s.rows - 1 then s.deleteLine 0 else { s with row := s.row + 1 }

/-- Blank the cells from `col` on in the line of the cursor, and if asked the lines below. -/
def clear (s : Screen) (below : Bool) : Screen :=
  { s with cells := fun r j =>
      if (r = s.row ∧ s.col ≤ j) ∨ (below ∧ s.row < r) then SPACE else s.cells r j }

def store (s : Screen) (c : UInt8) : Screen :=
  { s with cells := update s.cells s.row (update (s.cells s.row) s.col c), col := s.col + 1 }

/-- At the right margin the cursor goes to the next line. -/
def margin (s : Screen) : Screen :=
  if s.col ≥ s.cols then ({ s with col := 0 } : Screen).newline else s

def obey (s : Screen) : Command → Screen
  | .print c => (s.store c).margin
  | .left => { s with col := s.col - 1 }
  | .tab => ({ s with col := s.col + (8 - s.col % 8) } : Screen).margin
  | .newline => s.newline
  | .ret => { s with col := 0 }
  | .up => { s with row := s.row - 1 }
  | .down => { s with row := min (s.row + 1) (s.rows - 1) }
  | .right => { s with col := min (s.col + 1) (s.cols - 1) }
  | .home => { s with row := 0, col := 0 }
  | .reverseIndex => if s.row = 0 then s.insertLine 0 else { s with row := s.row - 1 }
  | .clearAll => ({ s with row := 0, col := 0 } : Screen).clear true
  | .clearPage => s.clear true
  | .clearLine => s.clear false
  | .insertLine => s.insertLine s.row
  | .deleteLine => s.deleteLine s.row
  | .move row col =>
    -- an address off the screen is not gone to, but its row is when the row is on it
    if row.toNat < 32 ∨ row.toNat ≥ 32 + s.rows then s
    else if col.toNat < 32 ∨ col.toNat ≥ 32 + s.cols then { s with row := row.toNat - 32 }
    else { s with row := row.toNat - 32, col := col.toNat - 32 }
  | .nothing => s

/-- A byte is sent to a screen with this font. -/
def send (defontNc : Nat) (s : Screen) (c : UInt8) : Screen :=
  let (parser, command) := s.parser.feed (fontChar defontNc c)
  ({ s with parser } : Screen).obey command

end Screen

/-! ## What a textport shows -/

/-- The character a byte in a row stands for, whatever its video. -/
def glyph (defontNc : Nat) (b : UInt8) : UInt8 := if defontNc ≤ 128 then b &&& 0x7f else b

/-- The character displayed in a column: blank at or beyond `r_maxcol`. -/
def Row.shown (defontNc : Nat) (rp : Row) (j : Nat) : UInt8 :=
  if j < rp.maxcol then glyph defontNc (rp.data j) else SPACE

/-- The parser of a textport. -/
def Txport.parser (tx : Txport) : Parser :=
  match tx.state with
  | .normal => .ground
  | .escape => .escape
  | .collect =>
    match tx.cmd with
    | .ready => if tx.count = 2 then .moveRow else .moveCol (tx.readbuf 1)
    | _ => .skip tx.count

/-- The displayed characters and the cursor are those of the screen. -/
structure Shows (defontNc : Nat) (tx : Txport) (s : Screen) : Prop where
  rows : s.rows = tx.rows
  cols : s.cols = tx.cols
  row : s.row = tx.row
  col : s.col = tx.col
  cells : ∀ r < tx.rows, ∀ j < tx.cols, (tx.display r).shown defontNc j = s.cells r j

/-- The bytes between `r_maxcol` and a column are blanks. -/
def Row.Gap (defontNc : Nat) (rp : Row) (col : Nat) : Prop :=
  ∀ j < col, rp.maxcol ≤ j → glyph defontNc (rp.data j) = SPACE

instance Row.decidableGap (defontNc : Nat) (rp : Row) (col : Nat) :
    Decidable (rp.Gap defontNc col) :=
  inferInstanceAs (Decidable (∀ j < col, _))

/-- The textport shows the screen, the cursor is on it, and there is nothing
    before the cursor that would turn up when the row grows up to it. -/
structure Good (defontNc : Nat) (tx : Txport) (s : Screen) : Prop where
  shows : Shows defontNc tx s
  inRows : tx.row < tx.rows
  inCols : tx.col < tx.cols
  gap : (tx.display tx.row).Gap defontNc tx.col

/-- The row that comes under the cursor when the cursor's line is deleted. -/
def Txport.below (tx : Txport) : Row :=
  if tx.row = tx.rows - 1 then ⟨(tx.display tx.row).data, 0⟩ else tx.display (tx.row + 1)

/-- The byte does not put the cursor behind old bytes of a row, and does not
    clear characters before the cursor. -/
def Harmless (defontNc : Nat) (tx : Txport) (c : UInt8) : Prop :=
  match (tx.parser.feed (fontChar defontNc c)).2 with
  | .clearPage => ∀ j < tx.col, (tx.display tx.row).shown defontNc j = SPACE
  | .insertLine => Row.Gap defontNc ⟨(tx.display (tx.rows - 1)).data, 0⟩ tx.col
  | .deleteLine => tx.below.Gap defontNc tx.col
  | .move row col =>
    32 ≤ row.toNat → row.toNat < 32 + tx.rows → col.toNat < 32 ∨ col.toNat ≥ 32 + tx.cols →
      (tx.display (row.toNat - 32)).Gap defontNc tx.col
  | _ => True

/-! ## Lines -/

section

variable {nc : Nat} {tx : Txport} {s : Screen}

theorem glyph_space (nc : Nat) : glyph nc SPACE = SPACE := by
  unfold glyph
  split <;> rfl

theorem blank_maxcol (rp : Row) (n : Nat) : (rp.blank n).maxcol = rp.maxcol + n := by
  induction n generalizing rp with
  | zero => rfl
  | succ n ih =>
    rw [Row.blank, ih, Nat.add_right_comm, Nat.add_assoc]

theorem blank_data (rp : Row) (n j : Nat) :
    (rp.blank n).data j = if rp.maxcol ≤ j ∧ j < rp.maxcol + n then SPACE else rp.data j := by
  induction n generalizing rp with
  | zero => grind [Row.blank]
  | succ n ih =>
    rw [Row.blank, ih]
    simp only [update_apply]
    grind

theorem blank_shown (rp : Row) (n j : Nat) : (rp.blank n).shown nc j = rp.shown nc j := by
  simp only [Row.shown, blank_maxcol, blank_data]
  grind [glyph_space]

theorem Good.keep {tx' : Txport} (good : Good nc tx s) (rows : tx'.rows = tx.rows)
    (cols : tx'.cols = tx.cols) (row : tx'.row = tx.row) (col : tx'.col = tx.col)
    (display : tx'.display = tx.display) : Good nc tx' s := by
  obtain ⟨shows, inRows, inCols, gap⟩ := good
  refine ⟨⟨?_, ?_, ?_, ?_, ?_⟩, ?_, ?_, ?_⟩
  · rw [rows, shows.rows]
  · rw [cols, shows.cols]
  · rw [row, shows.row]
  · rw [col, shows.col]
  · rw [rows, cols, display]
    exact shows.cells
  · rwa [rows, row]
  · rwa [cols, col]
  · rwa [display, row, col]

/-- The cursor may go anywhere when the row is adjusted afterwards. -/
theorem Shows.adjust (shows : Shows nc tx s) (inRows : tx.row < tx.rows)
    (inCols : tx.col < tx.cols) : Good nc (txAdjust tx) s := by
  refine ⟨⟨shows.rows, shows.cols, shows.row, shows.col, fun r here j there => ?_⟩, inRows, inCols,
    fun j before beyond => ?_⟩
  · rw [← shows.cells r here j there]
    simp only [txAdjust, update_apply]
    split
    next same => rw [same, blank_shown]
    next other => rfl
  · simp only [txAdjust, update_self, blank_maxcol] at beyond before
    omega

theorem shiftDown_eq (line n : Nat) (display : Nat → Row) (r : Nat) :
    shiftDown line n display r =
      if line < r ∧ r ≤ n then display (r - 1) else display r := by
  induction n generalizing display with
  | zero =>
    rw [shiftDown, if_neg (by omega)]
  | succ n ih =>
    rw [shiftDown]
    split
    · rw [ih]
      simp only [update_apply]
      grind
    · grind

theorem shiftUp_eq (n line : Nat) (display : Nat → Row) (r : Nat) :
    shiftUp n line display r =
      if line ≤ r ∧ r < line + n then display (r + 1) else display r := by
  induction n generalizing line display with
  | zero =>
    rw [shiftUp, if_neg (by omega)]
  | succ n ih =>
    rw [shiftUp, ih]
    simp only [update_apply]
    grind

theorem shown_empty (data : Nat → UInt8) (j : Nat) : (Row.mk data 0).shown nc j = SPACE := by
  simp only [Row.shown, Nat.not_lt_zero, if_false]

theorem insertln_display (tx : Txport) (line r : Nat) (inRows : r < tx.rows) :
    (txInsertln tx line).display r =
      if r < line then tx.display r
      else if r = line then ⟨(tx.display (tx.rows - 1)).data, 0⟩
      else tx.display (r - 1) := by
  simp only [txInsertln, update_apply, shiftDown_eq]
  grind

theorem deleteln_display (tx : Txport) (line r : Nat) (inRows : r < tx.rows)
    (onScreen : line < tx.rows) :
    (txDeleteln tx line).display r =
      if r = tx.rows - 1 then ⟨(tx.display line).data, 0⟩
      else if r < line then tx.display r
      else tx.display (r + 1) := by
  simp only [txDeleteln, update_apply, shiftUp_eq]
  grind

theorem Shows.insertln (shows : Shows nc tx s) (line : Nat) :
    Shows nc (txInsertln tx line) (s.insertLine line) := by
  refine ⟨shows.rows, shows.cols, shows.row, shows.col, fun r here j there => ?_⟩
  rw [insertln_display tx line r here]
  simp only [Screen.insertLine]
  split
  · exact shows.cells r here j there
  · split
    · exact shown_empty _ _
    · exact shows.cells (r - 1) (Nat.lt_of_le_of_lt (Nat.sub_le ..) here) j there

theorem Shows.deleteln (shows : Shows nc tx s) {line : Nat} (onScreen : line < tx.rows) :
    Shows nc (txDeleteln tx line) (s.deleteLine line) := by
  refine ⟨shows.rows, shows.cols, shows.row, shows.col, fun r here j there => ?_⟩
  have here : r < tx.rows := here
  rw [deleteln_display tx line r here onScreen]
  simp only [Screen.deleteLine, shows.rows]
  by_cases last : r = tx.rows - 1
  · have notBefore : ¬ r < line := by omega
    rw [if_pos last, if_neg notBefore, if_pos last]
    exact shown_empty _ _
  · rw [if_neg last, if_neg last]
    split
    · exact shows.cells r here j there
    · exact shows.cells (r + 1) (by omega) j there

/-! ## Commands -/

/-- The cursor moves within its row, towards its beginning. -/
theorem Good.back (good : Good nc tx s) {col : Nat} (before : col ≤ tx.col) :
    Good nc { tx with col } { s with col } where
  shows := ⟨good.shows.rows, good.shows.cols, good.shows.row, rfl, good.shows.cells⟩
  inRows := good.inRows
  inCols := Nat.lt_of_le_of_lt before good.inCols
  gap j there := good.gap j (Nat.lt_of_lt_of_le there before)

/-- The cursor moves to another place, and the row is adjusted. -/
theorem Good.goto (good : Good nc tx s) {row col : Nat} (inRows : row < tx.rows)
    (inCols : col < tx.cols) : Good nc (txAdjust { tx with row, col }) { s with row, col } :=
  Shows.adjust ⟨good.shows.rows, good.shows.cols, rfl, rfl, good.shows.cells⟩ inRows inCols

/-- Lines are shifted, and the row is adjusted unless the cursor is at its beginning. -/
theorem Shows.scroll (shows : Shows nc tx s) (inRows : tx.row < tx.rows)
    (inCols : tx.col < tx.cols) : Good nc (if tx.col ≠ 0 then txAdjust tx else tx) s := by
  split
  · exact shows.adjust inRows inCols
  next start =>
    refine ⟨shows, inRows, inCols, fun j before => ?_⟩
    omega

theorem Good.view (good : Good nc tx s) :
    ∃ parser cells, s = ⟨tx.rows, tx.cols, parser, tx.row, tx.col, cells⟩ := by
  obtain ⟨rows, cols, parser, row, col, cells⟩ := s
  obtain ⟨⟨rfl, rfl, rfl, rfl, -⟩, -⟩ := good
  exact ⟨parser, cells, rfl⟩

theorem Good.newline (good : Good nc tx s) : Good nc (txDownln tx true) s.newline := by
  have inRows := good.inRows
  obtain ⟨parser, cells, rfl⟩ := good.view
  unfold txDownln Screen.newline
  split
  · exact (good.shows.deleteln (by omega)).scroll good.inRows good.inCols
  · exact good.goto (by omega) good.inCols

theorem Good.down (good : Good nc tx s) :
    Good nc (txDownln tx false) { s with row := min (s.row + 1) (s.rows - 1) } := by
  have inRows := good.inRows
  obtain ⟨parser, cells, rfl⟩ := good.view
  unfold txDownln
  split
  next last =>
    have stays : min (tx.row + 1) (tx.rows - 1) = tx.row := by omega
    simpa only [stays, Bool.false_eq_true, if_false] using good
  next above =>
    have moves : min (tx.row + 1) (tx.rows - 1) = tx.row + 1 := by omega
    simp only [moves]
    exact good.goto (by omega) good.inCols

theorem Good.up (good : Good nc tx s) :
    Good nc (txUpln tx false) { s with row := s.row - 1 } := by
  have inRows := good.inRows
  obtain ⟨parser, cells, rfl⟩ := good.view
  unfold txUpln
  split
  next top =>
    have stays : tx.row - 1 = tx.row := by omega
    simpa only [stays, Bool.false_eq_true, if_false] using good
  · exact good.goto (by omega) good.inCols

theorem Good.reverseIndex (good : Good nc tx s) :
    Good nc (txUpln tx true) (if s.row = 0 then s.insertLine 0 else { s with row := s.row - 1 }) := by
  have inRows := good.inRows
  obtain ⟨parser, cells, rfl⟩ := good.view
  unfold txUpln
  split
  · exact (good.shows.insertln 0).scroll good.inRows good.inCols
  · exact good.goto (by omega) good.inCols

theorem Good.left (good : Good nc tx s) :
    Good nc (if tx.col ≠ 0 then txAdjust { tx with col := tx.col - 1 } else tx)
      { s with col := s.col - 1 } := by
  have inCols := good.inCols
  obtain ⟨parser, cells, rfl⟩ := good.view
  split
  · exact good.goto good.inRows (by omega)
  next start =>
    have stays : tx.col - 1 = tx.col := by omega
    simpa only [stays] using good

theorem Good.right (good : Good nc tx s) :
    Good nc (if tx.col < tx.cols - 1 then txAdjust { tx with col := tx.col + 1 } else tx)
      { s with col := min (s.col + 1) (s.cols - 1) } := by
  have inCols := good.inCols
  obtain ⟨parser, cells, rfl⟩ := good.view
  split
  next room =>
    have moves : min (tx.col + 1) (tx.cols - 1) = tx.col + 1 := by omega
    simp only [moves]
    exact good.goto good.inRows (by omega)
  next edge =>
    have stays : min (tx.col + 1) (tx.cols - 1) = tx.col := by omega
    simpa only [stays] using good

/-- At the right margin the port goes on in the next row, else where it is. -/
theorem Good.start (good : Good nc tx s) (col : Nat) :
    Good nc (txDownln { tx with col := 0 } true) ({ { s with col } with col := 0 } : Screen).newline :=
  (good.back (Nat.zero_le _)).newline

theorem Good.tab (good : Good nc tx s) : Good nc (txControl tx 9) (s.obey .tab) := by
  have start := good.start (tx.col + (8 - tx.col % 8))
  obtain ⟨parser, cells, rfl⟩ := good.view
  have code : txControl tx 9 =
      txAdjust (if tx.col + (8 - tx.col % 8) ≥ tx.cols then txDownln { tx with col := 0 } true
        else { tx with col := tx.col + (8 - tx.col % 8) }) := rfl
  rw [code]
  simp only [Screen.obey, Screen.margin]
  split
  · exact start.shows.adjust start.inRows start.inCols
  · exact good.goto good.inRows (by omega)

theorem fontChar_small (few : nc ≤ 128) (c : UInt8) : fontChar nc c &&& 0x7f = fontChar nc c := by
  have twice : ∀ b : BitVec 8, b &&& 0x7f#8 &&& 0x7f#8 = b &&& 0x7f#8 := by decide +kernel
  have small : ∀ b : BitVec 8, b.toNat < 128 → b &&& 0x7f#8 = b := by decide +kernel
  apply UInt8.eq_of_toBitVec_eq
  unfold fontChar
  split
  · exact twice c.toBitVec
  · exact small c.toBitVec (by rw [UInt8.toNat_toBitVec]; omega)

/-- Whatever the video, the byte stored shows the character. -/
theorem glyph_stored (reverse : Bool) (c : UInt8) :
    glyph nc (stored nc reverse (fontChar nc c)) = fontChar nc c := by
  have mark : ∀ b : BitVec 8, (b &&& 0x7f#8 ||| 0x80#8) &&& 0x7f#8 = b &&& 0x7f#8 := by
    decide +kernel
  have twice : ∀ b : BitVec 8, b &&& 0x7f#8 &&& 0x7f#8 = b &&& 0x7f#8 := by decide +kernel
  unfold glyph stored
  split
  next few =>
    refine Eq.trans (UInt8.eq_of_toBitVec_eq ?_) (fontChar_small few c)
    split
    · exact mark _
    · exact twice _
  · rfl

theorem Good.store (good : Good nc tx s) (c : UInt8) :
    Shows nc (txStore nc tx (fontChar nc c)) (s.store (fontChar nc c)) := by
  have gap := good.gap
  have cells := good.shows.cells
  obtain ⟨parser, old, rfl⟩ := good.view
  refine ⟨rfl, rfl, rfl, rfl, fun r here j there => ?_⟩
  have old := cells r here j there
  simp only [txStore, Screen.store, update_apply]
  split
  next same =>
    subst same
    simp only [Row.shown, update_apply] at old ⊢
    by_cases cursor : j = tx.col
    · rw [if_pos cursor, if_pos cursor, glyph_stored, if_pos (by split <;> omega)]
    · rw [if_neg cursor, if_neg cursor, ← old]
      -- what stood between the row's end and the cursor is blank on either side
      have blank := gap j
      grind
  next other => exact old

theorem Good.print (good : Good nc tx s) (c : UInt8) :
    Good nc (txPrint nc tx (fontChar nc c)) (s.obey (.print (fontChar nc c))) := by
  have shows := good.store c
  have inRows : (txStore nc tx (fontChar nc c)).row < (txStore nc tx (fontChar nc c)).rows :=
    good.inRows
  have inCols : tx.col < tx.cols := good.inCols
  have column : (txStore nc tx (fontChar nc c)).col = tx.col + 1 := rfl
  have columns : (txStore nc tx (fontChar nc c)).cols = tx.cols := rfl
  have grown : tx.col + 1 ≤ ((txStore nc tx (fontChar nc c)).display tx.row).maxcol := by
    simp only [txStore, update_self]
    split <;> omega
  simp only [txPrint, Screen.obey, Screen.margin]
  by_cases edge : tx.col + 1 = tx.cols
  · rw [if_pos (column.trans (edge.trans columns.symm)),
      if_pos (by rw [shows.col, shows.cols]; exact Nat.le_of_eq edge.symm)]
    refine Good.newline ⟨⟨shows.rows, shows.cols, shows.row, rfl, shows.cells⟩, inRows, ?_, ?_⟩
    · exact Nat.zero_lt_of_lt inCols
    · exact fun j before => absurd before (Nat.not_lt_zero j)
  · rw [if_neg fun same => edge (column.symm.trans (same.trans columns)),
      if_neg (by rw [shows.col, shows.cols]; exact fun full => edge (by omega))]
    refine ⟨shows, inRows, by omega, fun j before beyond => ?_⟩
    exact absurd (Nat.lt_of_lt_of_le before grown) (Nat.not_lt.mpr beyond)

theorem Good.clear (good : Good nc tx s)
    (harmless : ∀ j < tx.col, (tx.display tx.row).shown nc j = SPACE) :
    Good nc (clearPage tx) (s.clear true) := by
  have cells := good.shows.cells
  have gap := good.gap
  obtain ⟨parser, old, rfl⟩ := good.view
  refine ⟨⟨rfl, rfl, rfl, rfl, fun r here j there => ?_⟩, good.inRows, good.inCols,
    fun j before beyond => ?_⟩
  · have old : (tx.display r).shown nc j = old r j := cells r here j there
    have here : r < tx.rows := here
    simp only [clearPage, Screen.clear, true_and]
    by_cases before : r < tx.row
    · rw [if_neg (by omega), if_neg (by omega), old]
    · rw [if_pos ⟨by omega, here⟩, shown_empty]
      by_cases first : r = tx.row ∧ j < tx.col
      · rw [if_neg (by omega), ← old, first.1, harmless j first.2]
      · have behind : (r = tx.row ∧ tx.col ≤ j) ∨ tx.row < r := by omega
        rw [if_pos behind]
  · have blank := harmless j before
    simp only [clearPage, Nat.le_refl, good.inRows, and_self, if_true] at beyond ⊢
    simp only [Row.shown] at blank
    split at blank
    · exact blank
    · exact gap j before (by omega)

theorem Good.clearLine (good : Good nc tx s) :
    Good nc { tx with display := update tx.display tx.row ⟨(tx.display tx.row).data, tx.col⟩ }
      (s.clear false) := by
  have cells := good.shows.cells
  have gap := good.gap
  obtain ⟨parser, old, rfl⟩ := good.view
  refine ⟨⟨rfl, rfl, rfl, rfl, fun r here j there => ?_⟩, good.inRows, good.inCols,
    fun j before beyond => ?_⟩
  · have old := cells r here j there
    simp only [Screen.clear, update_apply]
    split
    next same =>
      subst same
      have blank := gap j
      simp only [Row.shown] at old ⊢
      grind
    next other => rw [if_neg (by simp [other]), old]
  · simp only [update_self] at beyond
    exact absurd before (Nat.not_lt.mpr beyond)

theorem Good.insertLine (good : Good nc tx s)
    (harmless : Row.Gap nc ⟨(tx.display (tx.rows - 1)).data, 0⟩ tx.col) :
    Good nc (txInsertln tx tx.row) (s.insertLine s.row) := by
  have here := insertln_display tx tx.row tx.row good.inRows
  rw [good.shows.row]
  refine ⟨good.shows.insertln tx.row, good.inRows, good.inCols, ?_⟩
  show Row.Gap nc ((txInsertln tx tx.row).display tx.row) tx.col
  rwa [here, if_neg (Nat.lt_irrefl _), if_pos rfl]

theorem Good.deleteLine (good : Good nc tx s) (harmless : tx.below.Gap nc tx.col) :
    Good nc (txDeleteln tx tx.row) (s.deleteLine s.row) := by
  have here := deleteln_display tx tx.row tx.row good.inRows good.inRows
  rw [good.shows.row]
  refine ⟨good.shows.deleteln good.inRows, good.inRows, good.inCols, ?_⟩
  show Row.Gap nc ((txDeleteln tx tx.row).display tx.row) tx.col
  rw [here, if_neg (Nat.lt_irrefl _)]
  exact harmless

theorem Good.move (good : Good nc tx s) (row col : UInt8)
    (args : tx.readbuf 1 = row ∧ tx.readbuf 0 = col)
    (harmless : 32 ≤ row.toNat → row.toNat < 32 + tx.rows →
      col.toNat < 32 ∨ col.toNat ≥ 32 + tx.cols →
        (tx.display (row.toNat - 32)).Gap nc tx.col) :
    Good nc (txReady tx) (s.obey (.move row col)) := by
  obtain ⟨rfl, rfl⟩ := args
  obtain ⟨parser, cells, rfl⟩ := good.view
  simp only [txReady, Screen.obey]
  split
  · exact good
  next onScreen =>
    split
    next half =>
      refine ⟨⟨rfl, rfl, rfl, rfl, good.shows.cells⟩, ?_, good.inCols,
        harmless (by omega) (by omega) half⟩
      show (tx.readbuf 1).toNat - 32 < tx.rows
      omega
    next whole => exact good.goto (by omega) (by omega)

/-! ## Bytes -/

/-- The parser is where the port's state says, with as many arguments to come. -/
def Parses (tx : Txport) (s : Screen) : Prop :=
  s.parser = tx.parser ∧ (tx.state = .collect → tx.count = 1 ∨ tx.count = 2)

theorem newline_escape (s : Screen) : s.newline.parser = s.parser := by
  unfold Screen.newline
  split <;> rfl

theorem margin_escape (s : Screen) : s.margin.parser = s.parser := by
  unfold Screen.margin
  split
  · exact newline_escape _
  · rfl

theorem obey_escape (s : Screen) (command : Command) : (s.obey command).parser = s.parser := by
  cases command with
  | print c => exact margin_escape _
  | tab => exact margin_escape _
  | newline => exact newline_escape s
  | reverseIndex =>
    simp only [Screen.obey]
    split <;> rfl
  | move row col =>
    simp only [Screen.obey]
    repeat' split
    all_goals rfl
  | _ => rfl

/-- The fields that the parser looks at. -/
def Txport.reading (tx : Txport) : State × Cmd × Nat × (Nat → UInt8) :=
  (tx.state, tx.cmd, tx.count, tx.readbuf)

theorem downln_reading (tx : Txport) (scroll : Bool) :
    (txDownln tx scroll).reading = tx.reading := by
  simp only [txDownln]
  repeat' split
  all_goals rfl

theorem upln_reading (tx : Txport) (scroll : Bool) : (txUpln tx scroll).reading = tx.reading := by
  simp only [txUpln]
  repeat' split
  all_goals rfl

theorem print_reading (tx : Txport) (c : UInt8) : (txPrint nc tx c).reading = tx.reading := by
  simp only [txPrint]
  split
  · rw [downln_reading]
    rfl
  · rfl

theorem control_good (good : Good nc tx s) {c : UInt8} (escape : c ≠ ESC) :
    Good nc (txControl tx c) (s.obey (control c)) ∧ (txControl tx c).reading = tx.reading := by
  unfold control
  split
  next backspace =>
    subst backspace
    refine ⟨good.left, ?_⟩
    show (if tx.col ≠ 0 then txAdjust { tx with col := tx.col - 1 } else tx).reading = tx.reading
    split <;> rfl
  next noBackspace =>
    split
    next tab =>
      subst tab
      refine ⟨good.tab, ?_⟩
      have code : txControl tx 9 =
          txAdjust (if tx.col + (8 - tx.col % 8) ≥ tx.cols then txDownln { tx with col := 0 } true
            else { tx with col := tx.col + (8 - tx.col % 8) }) := rfl
      rw [code]
      split
      · exact downln_reading _ _
      · rfl
    next noTab =>
      unfold txControl
      rw [if_neg escape, if_neg noBackspace, if_neg noTab]
      split
      · exact ⟨good.newline, downln_reading _ _⟩
      · split
        · exact ⟨good.back (Nat.zero_le _), rfl⟩
        · exact ⟨good, rfl⟩

/-- The letters that take no arguments. -/
theorem letter_good {c : UInt8} (good : Good nc { tx with state := .normal } s)
    (harmless : match letter c with
      | .clearPage => ∀ j < tx.col, (tx.display tx.row).shown nc j = SPACE
      | .insertLine => Row.Gap nc ⟨(tx.display (tx.rows - 1)).data, 0⟩ tx.col
      | .deleteLine => tx.below.Gap nc tx.col
      | _ => True)
    (args : ¬ (c = 0x30 ∨ c = 0x39) ∧ c ≠ 0x37 ∧ c ≠ 0x59) :
    Good nc (txEscape tx c) (s.obey (letter c)) ∧
      (txEscape tx c).reading = { tx with state := State.normal }.reading := by
  by_cases up : c = 0x41
  · subst up
    exact ⟨good.up, upln_reading _ _⟩
  by_cases down : c = 0x42
  · subst down
    exact ⟨good.down, downln_reading _ _⟩
  by_cases right : c = 0x43
  · subst right
    refine ⟨good.right, ?_⟩
    show (if tx.col < tx.cols - 1 then _ else _ : Txport).reading = _
    split <;> rfl
  by_cases left : c = 0x44
  · subst left
    refine ⟨good.left, ?_⟩
    show (if tx.col ≠ 0 then _ else _ : Txport).reading = _
    split <;> rfl
  by_cases home : c = 0x48
  · subst home
    exact ⟨good.goto (Nat.zero_lt_of_lt good.inRows) (Nat.zero_lt_of_lt good.inCols), rfl⟩
  by_cases index : c = 0x49
  · subst index
    exact ⟨good.reverseIndex, upln_reading _ _⟩
  by_cases all : c = 0x76
  · subst all
    refine ⟨Good.clear ?_ fun j before => absurd before (Nat.not_lt_zero j), rfl⟩
    exact ⟨⟨good.shows.rows, good.shows.cols, rfl, rfl, good.shows.cells⟩,
      Nat.zero_lt_of_lt good.inRows, Nat.zero_lt_of_lt good.inCols,
      fun j before => absurd before (Nat.not_lt_zero j)⟩
  by_cases page : c = 0x4a
  · subst page
    exact ⟨good.clear harmless, rfl⟩
  by_cases line : c = 0x4b
  · subst line
    exact ⟨good.clearLine, rfl⟩
  by_cases insert : c = 0x4c
  · subst insert
    exact ⟨good.insertLine harmless, rfl⟩
  by_cases delete : c = 0x4d
  · subst delete
    exact ⟨good.deleteLine harmless, rfl⟩
  simp only [not_or] at args
  have code : txEscape tx c = { tx with state := .normal } := by
    simp only [txEscape, args.1.1, args.1.2, args.2.1, args.2.2, up, down, right, left, home, index,
      all, page, line, insert, delete, if_false]
  have nothing : letter c = .nothing := by
    simp only [letter, up, down, right, left, home, index, all, page, line, insert, delete,
      if_false]
  rw [code, nothing]
  exact ⟨good, rfl⟩

/-- The port shows the screen and reads escapes as it does. -/
structure Same (nc : Nat) (tx : Txport) (s : Screen) : Prop where
  good : Good nc tx s
  parses : Parses tx s

theorem Good.same (good : Good nc tx s) (ground : s.parser = .ground) (normal : tx.state = .normal) :
    Same nc tx s where
  good := good
  parses := by
    refine ⟨?_, fun collect => ?_⟩
    · rw [ground]
      simp only [Txport.parser, normal]
    · rw [normal] at collect
      cases collect

theorem Good.feed (good : Good nc tx s) (parser : Parser) : Good nc tx { s with parser } :=
  ⟨⟨good.shows.rows, good.shows.cols, good.shows.row, good.shows.col, good.shows.cells⟩,
    good.inRows, good.inCols, good.gap⟩

/-- The escape state of the port does not matter to what it shows. -/
theorem Good.reread (good : Good nc tx s) (state : State) (cmd : Cmd) (count : Nat)
    (readbuf : Nat → UInt8) (curcolor : Bool) :
    Good nc { tx with state, cmd, count, readbuf, curcolor } s :=
  good.keep rfl rfl rfl rfl rfl

theorem normal_same (same : Same nc tx s) (c : UInt8) (normal : tx.state = .normal) :
    Same nc (if fontChar nc c ≥ SPACE then txPrint nc tx (fontChar nc c)
      else txControl tx (fontChar nc c)) (s.send nc c) := by
  obtain ⟨good, parser, -⟩ := same
  have ground : s.parser = .ground := by simp only [parser, Txport.parser, normal]
  unfold Screen.send
  rw [ground]
  simp only [Parser.feed]
  split
  · refine ((good.feed .ground).print c).same (obey_escape _ _) ?_
    have reading : (txPrint nc tx (fontChar nc c)).reading = tx.reading := print_reading _ _
    exact (congrArg Prod.fst reading).trans normal
  · split
    next escape =>
      refine ⟨?_, ?_, ?_⟩
      · rw [txControl, if_pos escape]
        exact (good.feed .escape).keep rfl rfl rfl rfl rfl
      · rw [txControl, if_pos escape]
        rfl
      · rw [txControl, if_pos escape]
        nofun
    next noEscape =>
      obtain ⟨good, reading⟩ := control_good (good.feed .ground) noEscape
      exact good.same (obey_escape _ _) ((congrArg Prod.fst reading).trans normal)

theorem escape_same (same : Same nc tx s) (c : UInt8) (escape : tx.state = .escape)
    (harmless : Harmless nc tx c) :
    Same nc (txEscape tx (fontChar nc c)) (s.send nc c) := by
  obtain ⟨good, parser, -⟩ := same
  have read : tx.parser = .escape := by simp only [Txport.parser, escape]
  unfold Harmless at harmless
  unfold Screen.send
  rw [read] at harmless
  rw [parser, read]
  -- an escape whose arguments are to come
  have collects (cmd : Cmd) (count : Nat) (p : Parser) (small : count = 1 ∨ count = 2)
      (at' : (Irix.Textport.collect { tx with state := .normal } cmd count).parser = p) :
      Same nc (Irix.Textport.collect { tx with state := .normal } cmd count)
        { s with parser := p } :=
    ⟨(good.feed p).keep rfl rfl rfl rfl rfl, at'.symm, fun _ => small⟩
  simp only [Parser.feed] at harmless ⊢
  generalize fontChar nc c = c at harmless ⊢
  by_cases skip : c = 0x30 ∨ c = 0x39
  · rw [if_pos skip]
    rcases skip with rfl | rfl
    · exact collects .read0 1 _ (.inl rfl) rfl
    · exact collects .read9 1 _ (.inl rfl) rfl
  by_cases color : c = 0x37
  · subst color
    exact collects .read7 2 _ (.inr rfl) rfl
  by_cases address : c = 0x59
  · subst address
    exact collects .ready 2 _ (.inr rfl) rfl
  rw [if_neg skip, if_neg color, if_neg address] at harmless ⊢
  have here : Good nc { tx with state := State.normal } { s with parser := .ground } :=
    (good.feed .ground).keep rfl rfl rfl rfl rfl
  have simple : match letter c with
      | .clearPage => ∀ j < tx.col, (tx.display tx.row).shown nc j = SPACE
      | .insertLine => Row.Gap nc ⟨(tx.display (tx.rows - 1)).data, 0⟩ tx.col
      | .deleteLine => tx.below.Gap nc tx.col
      | _ => True := by
    split <;> simp_all
  obtain ⟨good, reading⟩ := letter_good here simple ⟨skip, color, address⟩
  exact good.same (obey_escape _ _) (congrArg Prod.fst reading)

theorem collect_same (same : Same nc tx s) (c : UInt8) (collects : tx.state = .collect)
    (harmless : Harmless nc tx c) :
    Same nc (txCollect tx (fontChar nc c)) (s.send nc c) := by
  obtain ⟨good, parser, count⟩ := same
  unfold Harmless at harmless
  unfold Screen.send
  generalize fontChar nc c = c at harmless ⊢
  rcases count collects with one | two
  · -- the last argument
    have last : tx.count - 1 = 0 := by omega
    by_cases address : tx.cmd = .ready
    · have read : tx.parser = .moveCol (tx.readbuf 1) := by
        simp only [Txport.parser, collects, address, one]
        rfl
      rw [read] at harmless
      rw [parser, read]
      have moved := Good.move
        ((good.feed .ground).reread tx.state tx.cmd 0 (update tx.readbuf 0 c) tx.curcolor)
        (tx.readbuf 1) c ⟨rfl, rfl⟩ harmless
      have code : txCollect tx c =
          { txReady { tx with count := 0, readbuf := update tx.readbuf 0 c } with
            state := .normal } := by
        simp only [txCollect, last, address, ne_eq, not_true_eq_false, if_false]
      rw [code]
      exact Good.same (moved.keep rfl rfl rfl rfl rfl) (obey_escape _ _) rfl
    · have read : tx.parser = .skip 1 := by
        unfold Txport.parser
        rw [collects, one]
        cases here : tx.cmd <;> simp_all
      rw [parser, read]
      refine Good.same ?_ rfl ?_
      · unfold txCollect
        simp only [last, ne_eq, not_true_eq_false, if_false]
        split
        · exact (good.feed .ground).keep rfl rfl rfl rfl rfl
        · exact (good.feed .ground).keep rfl rfl rfl rfl rfl
        · exact (good.feed .ground).keep rfl rfl rfl rfl rfl
        next ready => exact absurd ready address
      · unfold txCollect
        simp only [last, ne_eq, not_true_eq_false, if_false]
  · have more : tx.count - 1 = 1 := by omega
    have code : txCollect tx c = { tx with count := 1, readbuf := update tx.readbuf 1 c } := by
      simp only [txCollect, more, ne_eq, Nat.one_ne_zero, not_false_eq_true, if_true]
    rw [code, parser]
    refine ⟨?_, ?_, fun _ => .inl rfl⟩
    · unfold Txport.parser
      rw [collects, two]
      cases tx.cmd <;> exact (good.feed _).keep rfl rfl rfl rfl rfl
    · unfold Txport.parser
      rw [collects, two]
      cases tx.cmd <;> simp [Parser.feed, Screen.obey]

/-- A byte that is harmless has the same effect on the port and on the screen. -/
theorem addchar_same (same : Same nc tx s) (c : UInt8) (harmless : Harmless nc tx c) :
    Same nc (txAddchar nc tx c) (s.send nc c) := by
  unfold txAddchar
  cases reading : tx.state with
  | normal => exact normal_same same c reading
  | escape => exact escape_same same c reading harmless
  | collect => exact collect_same same c reading harmless

end

/-! ## Runs -/

theorem txInit_same (nc : Nat) {rows cols : Nat} (tall : 0 < rows) (wide : 0 < cols)
    (curcolor : Bool) (readbuf : Nat → UInt8) (data : Nat → Nat → UInt8) :
    Same nc (txInit rows cols curcolor readbuf data) (Screen.blank rows cols) where
  good :=
    ⟨⟨rfl, rfl, rfl, rfl, fun r _ j _ => shown_empty (data r) j⟩, tall, wide,
      fun j before => absurd before (Nat.not_lt_zero j)⟩
  parses := ⟨rfl, nofun⟩

theorem txAddchars_exec (nc : Nat) (tx : Txport) (cp : List UInt8) :
    txAddchars nc tx cp = exec (txAddchar nc) tx cp := by
  induction cp generalizing tx with
  | nil => rfl
  | cons c cp ih => exact ih (txAddchar nc tx c)

/-- The calls of a run make up one text. -/
theorem calls_exec (nc : Nat) (tx : Txport) (calls : List (List UInt8)) :
    calls.foldl (txAddchars nc) tx = exec (txAddchar nc) tx calls.flatten := by
  induction calls generalizing tx with
  | nil => rfl
  | cons cp calls ih => rw [List.foldl_cons, ih, txAddchars_exec, List.flatten_cons, exec_append]

/-- Every run of harmless bytes, in any calls, leaves on the display what it
    leaves on the screen of a terminal. -/
theorem textport_is_terminal (nc : Nat) {rows cols : Nat} (tall : 0 < rows) (wide : 0 < cols)
    (curcolor : Bool) (readbuf : Nat → UInt8) (data : Nat → Nat → UInt8)
    (calls : List (List UInt8))
    (harmless : Along (txAddchar nc) (Harmless nc) (txInit rows cols curcolor readbuf data)
      calls.flatten) :
    Shows nc (calls.foldl (txAddchars nc) (txInit rows cols curcolor readbuf data))
      (exec (Screen.send nc) (Screen.blank rows cols) calls.flatten) := by
  have keep : ∀ tx s c, Same nc tx s → Harmless nc tx c →
      Same nc (txAddchar nc tx c) (Screen.send nc s c) := fun _ _ c same ok => addchar_same same c ok
  have start := txInit_same nc tall wide curcolor readbuf data
  rw [calls_exec]
  exact (simulation keep start harmless).good.shows

/-- A page cleared from the beginning of its second line. -/
theorem textport_is_terminal_cleared :
    Shows 128
      ([[65, 13], [10, 27], [74, 66]].foldl (txAddchars 128)
        (txInit 2 4 false (fun _ => 0) fun _ _ => 88))
      (exec (Screen.send 128) (Screen.blank 2 4) [65, 13, 10, 27, 74, 66]) := by
  refine textport_is_terminal 128 (by decide) (by decide) false (fun _ => 0) (fun _ _ => 88)
    [[65, 13], [10, 27], [74, 66]] ⟨trivial, trivial, trivial, trivial, ?_, trivial, trivial⟩
  intro j before
  exact absurd before (Nat.not_lt_zero j)

/-- `A`, `B`, delete the line, `C`: the two deleted characters are on the display again. -/
theorem deleted_line_returns :
    ¬ ∀ calls : List (List UInt8),
      Shows 128 (calls.foldl (txAddchars 128) (txInit 1 4 false (fun _ => 0) fun _ _ => 32))
        (exec (Screen.send 128) (Screen.blank 1 4) calls.flatten) := by
  intro shows
  have first := (shows [[65, 66, 27, 77, 67]]).cells 0 (by decide) 0 (by decide)
  exact absurd first (by decide)

end Irix.Textport
