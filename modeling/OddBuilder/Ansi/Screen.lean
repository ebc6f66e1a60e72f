import OddBuilder.Ansi.Charset

/-!
# The screen

The operations of the screen, in the words of the source. What only serves the
painting (dirty rows, render requests) and the titles and replies are left out.
`computes` records the signed computations that depend on a parameter.
-/

namespace JobAnsi

open CountedLoop

/-- `std::clamp` -/
def clamp (n low high : Int) : Int := if n < low then low else if high < n then high else n

theorem clamp_bounds {n low high : Int} (h : low ≤ high) :
    low ≤ clamp n low high ∧ clamp n low high ≤ high := by
  unfold clamp
  split_ifs <;> omega

theorem clamp_self {n low high : Int} (hlow : low ≤ n) (hhigh : n ≤ high) :
    clamp n low high = n := by
  unfold clamp
  split_ifs <;> omega

structure Cursor where
  maxRows : Int
  maxCols : Int
  row : Int := 0
  column : Int := 0
  style : Int := 2
  customColor : Option RGBColor := none
  savedRow : Int := -1
  savedCol : Int := -1
  savedStyle : Int := 2
  savedCustomColor : Option RGBColor := none
  deriving DecidableEq

namespace Cursor

def setPosition (cursor : Cursor) (row col : Int) : Cursor :=
  { cursor with
    row := clamp row 0 (cursor.maxRows - 1), column := clamp col 0 (cursor.maxCols - 1) }

def updateDimensions (cursor : Cursor) (rows cols : Int) : Cursor :=
  { cursor with maxRows := rows, maxCols := cols }.setPosition cursor.row cursor.column

def move (cursor : Cursor) (rowDelta colDelta : Int) : Cursor :=
  cursor.setPosition (cursor.row + rowDelta) (cursor.column + colDelta)

def save (cursor : Cursor) : Cursor :=
  { cursor with
    savedRow := cursor.row, savedCol := cursor.column, savedStyle := cursor.style,
    savedCustomColor := cursor.customColor }

/-- The saved position comes back as it was, whatever the size is by now. -/
def restore (cursor : Cursor) : Cursor :=
  if 0 ≤ cursor.savedRow ∧ 0 ≤ cursor.savedCol then
    { cursor with
      row := cursor.savedRow, column := cursor.savedCol, style := cursor.savedStyle,
      customColor := cursor.savedCustomColor }
  else cursor

def setStyle (cursor : Cursor) (value : Int) : Cursor :=
  if 0 ≤ value ∧ value ≤ 6 then { cursor with style := value } else cursor

end Cursor

def maxScrollbackLines : Nat := 10000

structure Screen where
  wraparound : Bool := true
  insertMode : Bool := false
  autoLinefeed : Bool := false
  primaryGrid : Grid
  altGrid : Grid
  scrollback : List (List Cell) := []
  scrollOffset : Int := 0
  cursor : Cursor
  currentAttributes : Ref
  charset : CharsetTranslator := {}
  inAlternateGrid : Bool := false
  originMode : Bool := false
  wrapPending : Bool := false
  scrollTop : Int := 0
  scrollBottom : Int
  tabStops : List Int := []
  protectionMode : Int := 0
  store : AttributeStore
  safe : Bool := true

namespace Screen

def activeGrid (s : Screen) : Grid := if s.inAlternateGrid then s.altGrid else s.primaryGrid

def setGrid (s : Screen) (g : Grid) : Screen :=
  { s with
    primaryGrid := if s.inAlternateGrid then s.primaryGrid else g
    altGrid := if s.inAlternateGrid then g else s.altGrid }

def rowCount (s : Screen) : Int := s.primaryGrid.rows

def columnCount (s : Screen) : Int := s.primaryGrid.columns

/-- Computations whose results have to fit an `int`. -/
def computes (s : Screen) (ns : List Int) : Screen := { s with safe := s.safe && ns.all inInt }

/-- Something of the screen points at the object. -/
def holds (s : Screen) (r : Ref) : Bool :=
  r == defaultAttributes || r == s.currentAttributes ||
    s.primaryGrid.cells.any (fun cell => cell.attr == some r) ||
    s.altGrid.cells.any (fun cell => cell.attr == some r) ||
    s.scrollback.any fun line => line.any fun cell => cell.attr == some r

/-- `Attributes::intern`, with the pointers that its caller holds besides. -/
def intern (s : Screen) (held : List Ref) (attr : Attributes) : Ref × Screen :=
  let found := s.store.intern (fun r => held.contains r || s.holds r) attr
  (found.1, { s with store := found.2 })

/-- The object that a cell shows. -/
def shown (cell : Cell) : Ref := cell.attr.getD defaultAttributes

/-- `Cell::setAttributes` -/
def setAttributes (s : Screen) (held : List Ref) (attr : Attributes) (cell : Cell) :
    Cell × Screen :=
  if cell.attr.any fun r => (s.store.value r).equal attr then (cell, s)
  else
    let found := s.intern held attr
    ({ cell with attr := some found.1 }, found.2)

/-- `cellAt` does not return a null pointer. -/
def hasCell (s : Screen) (row col : Int) : Bool :=
  !(row < 0 || s.activeGrid.rows ≤ row || col < 0 || s.activeGrid.columns ≤ col)

def modifyCell (f : Cell → Cell) (row col : Int) (s : Screen) : Screen :=
  s.setGrid (s.activeGrid.store row col (f (s.activeGrid.cell row col)))

/-- A change through `cellAt` that leaves out null pointers. -/
def modifyAt (f : Cell → Cell) (row col : Int) (s : Screen) : Screen :=
  if s.hasCell row col then s.modifyCell f row col else s

/-- A change through `cellAt` that follows the pointer as it is. -/
def derefAt (f : Cell → Cell) (row col : Int) (s : Screen) : Screen :=
  let t := s.modifyAt f row col
  { t with safe := t.safe && s.hasCell row col }

/-- `*to = *from` between cells that are there. -/
def copyAt (row col toRow toCol : Int) (s : Screen) : Screen :=
  if s.hasCell row col then s.modifyAt (fun _ => s.activeGrid.cell row col) toRow toCol else s

def eraseCell (cell : Cell) : Cell := if cell.protectErase then cell else Cell.blank

def resetCell (cell : Cell) : Cell := if cell.protectErase then cell else cell.reset

/-- What `f` makes of a cell that may be written. -/
def ifWritable (f : Cell → Cell) (cell : Cell) : Cell := if cell.protectWrite then cell else f cell

def originRow (s : Screen) : Int := if s.originMode then s.scrollTop else 0

def originBottom (s : Screen) : Int :=
  if s.originMode then s.scrollBottom else s.activeGrid.rows

def setCursor (s : Screen) (row col : Int) : Screen :=
  { s with
    wrapPending := false
    cursor := s.cursor.setPosition (clamp row 0 (s.rowCount - 1))
      (clamp col 0 (s.columnCount - 1)) }

def moveCursorRelative (s : Screen) (rowDelta colDelta regionTop regionBottom : Int) : Screen :=
  let s := s.computes [s.cursor.row + rowDelta, s.cursor.column + colDelta]
  s.setCursor (clamp (s.cursor.row + rowDelta) regionTop (regionBottom - 1))
    (clamp (s.cursor.column + colDelta) 0 (s.columnCount - 1))

/-- Both arguments are distances. -/
def moveCursor (s : Screen) (rowDelta colDelta : Int) : Screen :=
  s.moveCursorRelative rowDelta colDelta s.originRow s.originBottom

def saveCursor (s : Screen) : Screen := { s with cursor := s.cursor.save }

def restoreCursor (s : Screen) : Screen := { s with cursor := s.cursor.restore }

def setOriginMode (s : Screen) (enabled : Bool) : Screen :=
  let s := { s with originMode := enabled }
  if enabled then s.moveCursor s.scrollTop 0 else s

def tabCount : Int := 512

/-- The loops that set a stop every eight columns. -/
def tabsBelow (bound : Int) : List Int :=
  ((List.range 64).map fun n => 8 * (n : Int)).filter (· < bound)

def setTabStop (s : Screen) (col : Int) : Screen :=
  if 0 ≤ col ∧ col < tabCount then { s with tabStops := col :: s.tabStops } else s

def clearTabStop (s : Screen) (col : Int) : Screen :=
  if 0 ≤ col ∧ col < tabCount then { s with tabStops := s.tabStops.filter (· ≠ col) } else s

def clearAllTabStops (s : Screen) : Screen := { s with tabStops := [] }

def isTabStop (s : Screen) (col : Int) : Bool := s.tabStops.contains col

def setScrollRegion (s : Screen) (top bottom : Int) : Screen :=
  let scrollTop := clamp top 0 (s.activeGrid.rows - 1)
  { s with
    scrollTop := scrollTop, scrollBottom := clamp bottom (scrollTop + 1) s.activeGrid.rows }

def dropOldest (lines : List (List Cell)) : List (List Cell) :=
  if maxScrollbackLines < lines.length then lines.tail else lines

/-- The row is copied behind the lines scrolled out; the oldest line may be dropped. -/
def saveLine (row : Int) (s : Screen) : Screen :=
  let lines := s.scrollback ++ [s.activeGrid.line row]
  { s with
    scrollback := dropOldest lines
    scrollOffset :=
      if maxScrollbackLines < lines.length ∧ 0 < s.scrollOffset then s.scrollOffset - 1
      else s.scrollOffset
    safe := s.safe && s.activeGrid.reachesLine row }

/-- Only a region that begins at the top of the primary screen has a history. -/
def saveLines (s : Screen) (top lines : Int) : Screen :=
  if top = 0 ∧ s.inAlternateGrid = false then upTo 0 lines (fun i s => s.saveLine (top + i)) s
  else s

/-- A cursor outside the region goes to its last or first row. -/
def cursorIntoRegion (s : Screen) (top bottom : Int) : Screen :=
  if bottom ≤ s.cursor.row then { s with cursor := s.cursor.setPosition (bottom - 1) 0 }
  else if s.cursor.row < top then { s with cursor := s.cursor.setPosition top 0 }
  else s

def deleteFrom (s : Screen) (startRow count limit : Int) : Screen :=
  s.setGrid (s.activeGrid.deleteLines startRow count Cell.blank limit)

def insertFrom (s : Screen) (startRow count limit : Int) : Screen :=
  s.setGrid (s.activeGrid.insertLines startRow count Cell.blank limit)

def scrollUpIn (s : Screen) (top bottom lines : Int) : Screen :=
  if lines ≤ 0 ∨ bottom ≤ top then s
  else ((s.saveLines top lines).deleteFrom top lines bottom).cursorIntoRegion top bottom

def scrollUp (s : Screen) : Screen := s.scrollUpIn s.scrollTop s.scrollBottom 1

def scrollDown (s : Screen) (top bottom lines : Int) : Screen :=
  if lines ≤ 0 ∨ bottom ≤ top then s
  else s.insertFrom top lines bottom

def insertLines (s : Screen) (startRow count : Int) : Screen :=
  s.insertFrom startRow count s.scrollBottom

def deleteLines (s : Screen) (startRow count : Int) : Screen :=
  if startRow < s.scrollTop ∨ s.scrollBottom ≤ startRow then s
  else s.deleteFrom startRow count s.scrollBottom

def clearScrollback (s : Screen) : Screen := { s with scrollback := [], scrollOffset := 0 }

def eraseToEnd (s : Screen) (row col : Int) : Screen :=
  upTo row s.rowCount (fun r s =>
    upTo (if r = row then col else 0) s.columnCount (fun c s => s.modifyAt eraseCell r c) s) s

def eraseToStart (s : Screen) (row col : Int) : Screen :=
  upTo 0 (row + 1) (fun r s =>
    upTo 0 ((if r = row then col else s.columnCount - 1) + 1)
      (fun c s => s.modifyAt eraseCell r c) s) s

def eraseLineToEnd (s : Screen) (row col : Int) : Screen :=
  upTo col s.columnCount (fun c s => s.modifyAt eraseCell row c) s

def eraseLineToStart (s : Screen) (row col : Int) : Screen :=
  upTo 0 (col + 1) (fun c s => s.modifyAt eraseCell row c) s

def eraseLine (s : Screen) (row : Int) : Screen :=
  upTo 0 s.columnCount (fun c s => s.modifyAt eraseCell row c) s

/-- All cells take the current attributes. -/
def clear (s : Screen) : Screen :=
  let pen := s.currentAttributes
  let s := upTo 0 s.activeGrid.rows (fun r s =>
    upTo 0 s.activeGrid.columns (fun c s => s.modifyCell (fun cell =>
      if cell.protectErase then cell else { attr := some pen }) r c) s) s
  s.setCursor 0 0

def eraseScreen (s : Screen) : Screen := s.clear

def eraseScreenAndScrollback (s : Screen) : Screen := s.clearScrollback.clear

def deleteChars (s : Screen) (count : Int) : Screen :=
  let row := s.cursor.row
  let col := s.cursor.column
  let maxCol := s.columnCount
  let s := s.computes [maxCol - count]
  let shiftEnd := maxCol - count
  let s := upTo col shiftEnd (fun i s =>
    if s.hasCell row i && s.hasCell row (i + count) && !(s.activeGrid.cell row i).protectWrite then
      s.modifyCell (fun _ => s.activeGrid.cell row (i + count)) row i
    else s) s
  upTo shiftEnd maxCol (fun i s => s.modifyAt resetCell row i) s

def eraseChars (s : Screen) (count : Int) : Screen :=
  let row := s.cursor.row
  let col := s.cursor.column
  upTo 0 (min count (s.columnCount - col)) (fun i s => s.modifyAt resetCell row (col + i)) s

/-- The character and the attributes to repeat are never set: blanks are written. -/
def repeatCell (row col : Int) (s : Screen) : Screen :=
  if s.hasCell row col && !(s.activeGrid.cell row col).protectWrite then
    let written := s.setAttributes [] {} { s.activeGrid.cell row col with char := 0x20 }
    written.2.modifyCell (fun _ => written.1) row col
  else s

def repeatLastChar (s : Screen) (count : Int) : Screen :=
  if count ≤ 0 then s
  else
    let row := s.cursor.row
    let col := s.cursor.column
    let turns := max 0 (min count (s.columnCount - col))
    let s := upTo 0 turns (fun i s => s.repeatCell row (col + i)) s
    { s with cursor := s.cursor.setPosition row (col + turns) }

def eraseField (s : Screen) (row col mode : Int) : Screen :=
  if row < 0 ∨ s.activeGrid.rows ≤ row ∨ col < 0 ∨ s.activeGrid.columns ≤ col then s
  else
    match mode with
    | 0 => upTo col s.activeGrid.columns (fun c s => s.derefAt resetCell row c) s
    | 1 => upTo 0 (col + 1) (fun c s => s.derefAt resetCell row c) s
    | 2 => upTo 0 s.activeGrid.columns (fun c s => s.derefAt resetCell row c) s
    | _ => s

def eraseArea (s : Screen) (mode : Int) : Screen :=
  let rows := s.activeGrid.rows
  let cols := s.activeGrid.columns
  let curRow := s.cursor.row
  let curCol := s.cursor.column
  match mode with
  | 0 => upTo curRow rows (fun r s => upTo (if r = curRow then curCol else 0) cols
      (fun c s => s.modifyAt resetCell r c) s) s
  | 1 => upTo 0 (curRow + 1) (fun r s => upTo 0 ((if r = curRow then curCol else cols - 1) + 1)
      (fun c s => s.modifyAt resetCell r c) s) s
  | 2 => upTo 0 rows (fun r s => upTo 0 cols (fun c s => s.modifyAt resetCell r c) s) s
  | _ => s

/-- The setters of a line's display: every cell of the row that may be written. -/
def setLine (f : Cell → Cell) (s : Screen) (row : Int) : Screen :=
  if row < 0 ∨ s.activeGrid.rows ≤ row then s
  else upTo 0 s.activeGrid.columns (fun c s => s.modifyCell (ifWritable f) row c) s

def setLineWidth (s : Screen) (row : Int) (width : Nat) : Screen :=
  s.setLine (fun cell => { cell with lineWidth := max 1 width }) row

def setLineHeight (s : Screen) (row : Int) (height : Nat) : Screen :=
  s.setLine (fun cell => { cell with lineHeight := max 1 height }) row

def setLineHeightPosition (s : Screen) (row : Int) (isTop : Bool) : Screen :=
  s.setLine (fun cell => { cell with isTopHalf := isTop }) row

def enterAlternateGrid (s : Screen) : Screen :=
  let s := { s with
    inAlternateGrid := true
    altGrid := { s.altGrid with cells := s.altGrid.cells.map fun _ => {} } }
  s.setScrollRegion 0 s.altGrid.rows

def exitAlternateGrid (s : Screen) : Screen := { s with inAlternateGrid := false }

/-- The margins are compared with a grid that has the new size already. -/
def resize (s : Screen) (rows cols : Int) : Screen :=
  let primaryGrid := s.primaryGrid.resize rows cols
  let s := { s with
    primaryGrid := primaryGrid
    altGrid := s.altGrid.resize rows cols
    cursor := s.cursor.updateDimensions rows cols
    tabStops := tabsBelow cols }
  let s := s.computes [8 * ((cols + 7) / 8)]
  if s.scrollBottom = primaryGrid.rows ∨ rows < s.scrollBottom then { s with scrollBottom := rows }
  else s

/-- `Screen(rows, cols)`. The record of unsafe steps begins with it. -/
def make (rows cols : Int) : Screen :=
  let first := AttributeStore.initial.intern (fun _ => false) {}
  let s : Screen :=
    { primaryGrid := Grid.make rows cols
      altGrid := Grid.make rows cols
      cursor := { maxRows := rows, maxCols := cols }
      currentAttributes := first.1
      scrollBottom := rows
      store := first.2 }
  { s.resize rows cols with safe := true }

/-- `resetTabStops` throws for a screen with more columns than tab stops. -/
def resetThrows (s : Screen) : Bool := tabCount < s.activeGrid.columns

def reset (s : Screen) : Screen :=
  let s := s.clear.clearScrollback
  if s.resetThrows then { s with tabStops := tabsBelow tabCount }
  else
    { s with
      inAlternateGrid := false
      originMode := false
      scrollTop := 0
      scrollBottom := s.primaryGrid.rows
      currentAttributes := defaultAttributes
      tabStops := tabsBelow (s.primaryGrid.columns - 1) }

/-- The turns of insert mode: the rest of the row moves one cell to the right. -/
def shiftRight (s : Screen) (row col : Int) : Screen :=
  let s := downTo (s.activeGrid.columns - 2) col
    (fun i s => s.setGrid (s.activeGrid.copyCell row i row (i + 1))) s
  s.modifyCell Cell.reset row col

/-- The protection that the current mode gives a cell. -/
def protect (s : Screen) (cell : Cell) : Cell :=
  { cell with
    protectErase := s.protectionMode = 1 ∨ s.protectionMode = 2
    protectWrite := s.protectionMode = 2 }

/-- In the last column the cursor stays, and a wrap is pending. -/
def advance (s : Screen) (col : Int) : Screen :=
  if col = s.activeGrid.columns - 1 then
    if s.wraparound then { s with wrapPending := true } else s
  else { s with cursor := s.cursor.move 0 1 }

/-- The character goes into a cell that may be written, and the cursor on. -/
def writeCell (s : Screen) (row col : Int) (ch : Nat) : Screen :=
  let written := s.setAttributes [] (s.store.value s.currentAttributes)
    { s.activeGrid.cell row col with char := ch }
  (written.2.modifyCell (fun _ => s.protect written.1) row col).advance col

/-- The wrap that a character in the last column left pending. -/
def wrapNow (s : Screen) : Screen :=
  if s.wrapPending && s.wraparound then
    let s := { s with wrapPending := false }
    let nextRow := s.cursor.row + 1
    if s.scrollBottom ≤ nextRow then
      let s := s.scrollUp
      { s with cursor := s.cursor.setPosition (s.scrollBottom - 1) 0 }
    else { s with cursor := s.cursor.setPosition nextRow 0 }
  else s

def makeRoom (s : Screen) : Screen :=
  if s.insertMode then s.shiftRight s.cursor.row s.cursor.column else s

def writeChar (s : Screen) (ch : Nat) : Screen :=
  if (s.activeGrid.cell s.cursor.row s.cursor.column).protectWrite then s
  else s.writeCell s.cursor.row s.cursor.column ch

def putPrintable (s : Screen) (ch : Nat) : Screen :=
  let s := s.wrapNow
  if s.hasCell s.cursor.row s.cursor.column then s.makeRoom.writeChar (s.charset.applyCharset ch)
  else s

def scrollAtBottom (s : Screen) : Screen :=
  if s.scrollBottom ≤ s.cursor.row + 1 then s.scrollUp else s

/-- The cursor moves by what is meant as its new row and column. -/
def putLineFeed (s : Screen) (column : Screen → Int) : Screen :=
  let s := s.scrollAtBottom
  s.moveCursor (min (s.cursor.row + 1) (s.scrollBottom - 1)) (column s)

def putChar (s : Screen) (ch : Nat) : Screen :=
  if ch = 0x0D then
    let s := { s with wrapPending := false }
    let s := s.moveCursor s.cursor.row 0
    if s.autoLinefeed then s.putLineFeed (fun _ => 0) else s
  else if ch = 0x0A then
    { s with wrapPending := false }.putLineFeed fun s => s.cursor.column
  else if ch = 0x08 then
    let s := { s with wrapPending := false }
    if 0 < s.cursor.column then s.moveCursor s.cursor.row (s.cursor.column - 1) else s
  else s.putPrintable ch

end Screen

end JobAnsi
