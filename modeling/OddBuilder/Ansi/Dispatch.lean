import OddBuilder.Ansi.Screen

/-!
# Dispatch

What a control sequence, an escape or a character does to the screen. A handler
reads the parameters as they come: unchecked numbers, fewer than it knows.
-/

namespace JobAnsi

open CountedLoop

inductive CsiCode where
  | ICH | CUU | CUD | CUF | CUB | CNL | CPL | CHA | CUP | CHT | ED | EL | IL | DL | EF | EA | DCH
  | SEE | CPR | SU | SD | NP | PP | CTC | ECH | SR | CBT | HPR | REP | DA | VPA | HVP | TBC | SM
  | MC | RM | SGR | DSR | DECLL | DECSCUSR | DECSTBM | SCP | WINDOW_MANIP | RCP | DECDWL | DECSWL
  | DECFRA | DECRARA | PASTE_END | DECSCA | DECCRA | DECDHL_TOP | DECDHL_BOTTOM | DA3 | DA2 | UNKNOWN
  deriving DecidableEq, Repr

/-- The final bytes. The codes of `{` for a paste and for `DECRARA` are the same one. -/
def csiCodes : List (Char × CsiCode) :=
  [('@', .ICH), ('A', .CUU), ('B', .CUD), ('C', .CUF), ('D', .CUB), ('E', .CNL), ('F', .CPL),
    ('G', .CHA), ('H', .CUP), ('I', .CHT), ('J', .ED), ('K', .EL), ('L', .IL), ('M', .DL),
    ('N', .EF), ('O', .EA), ('P', .DCH), ('Q', .SEE), ('R', .CPR), ('S', .SU), ('T', .SD),
    ('U', .NP), ('V', .PP), ('W', .CTC), ('X', .ECH), ('Z', .CBT), ('a', .HPR), ('b', .REP),
    ('c', .DA), ('d', .VPA), ('f', .HVP), ('g', .TBC), ('h', .SM), ('i', .MC), ('l', .RM),
    ('m', .SGR), ('n', .DSR), ('p', .DECLL), ('q', .DECSCUSR), ('r', .DECSTBM), ('s', .SCP),
    ('t', .WINDOW_MANIP), ('u', .RCP), ('v', .DECDWL), ('w', .DECSWL), ('z', .DECFRA),
    ('\x7b', .DECRARA), ('|', .PASTE_END), ('\x22', .DECSCA), ('#', .DECCRA), ('3', .DECDHL_TOP),
    ('4', .DECDHL_BOTTOM), ('=', .DA3), ('>', .DA2), ('Y', .SR)]

def decodeCsiCode (byte : UInt8) : CsiCode :=
  (csiCodes.lookup (Char.ofNat byte.toNat)).getD .UNKNOWN

/-- `params.size() > n ? params[n] - 1 : otherwise` -/
def position (params : List Int) (n : Nat) (otherwise : Int) : Int :=
  match params[n]? with
  | some value => value - 1
  | none => otherwise

/-- What `position` computes for several places. -/
def positions (params : List Int) (ns : List Nat) : List Int :=
  ns.filterMap fun n => params[n]?.map (· - 1)

namespace Screen

def moveBy (s : Screen) (rowDelta colDelta : Int) : Screen :=
  (s.computes [rowDelta, colDelta]).moveCursorRelative rowDelta colDelta s.originRow s.originBottom

def cuu (s : Screen) (params : List Int) : Screen := s.moveBy (-params.headD 1) 0

def cud (s : Screen) (params : List Int) : Screen := s.moveBy (params.headD 1) 0

def cuf (s : Screen) (params : List Int) : Screen := s.moveBy 0 (params.headD 1)

def cub (s : Screen) (params : List Int) : Screen := s.moveBy 0 (-params.headD 1)

def cnl (s : Screen) (params : List Int) : Screen :=
  (s.computes [s.cursor.row + params.headD 1]).setCursor (s.cursor.row + params.headD 1) 0

def cpl (s : Screen) (params : List Int) : Screen :=
  (s.computes [s.cursor.row - params.headD 1]).setCursor (s.cursor.row - params.headD 1) 0

def cha (s : Screen) (params : List Int) : Screen :=
  (s.computes [params.headD 1 - 1]).setCursor (s.cursor.row - s.originRow) (params.headD 1 - 1)

def cup (s : Screen) (params : List Int) : Screen :=
  let row := position params 0 0
  let col := position params 1 0
  let s := s.computes [row, col]
  if s.originMode then (s.computes [row + s.scrollTop]).setCursor (row + s.scrollTop) col
  else s.setCursor row col

def vpa (s : Screen) (params : List Int) : Screen :=
  let row := params.headD 1
  if s.originMode then
    (s.computes [row + s.scrollTop, row + s.scrollTop - 1]).setCursor (row + s.scrollTop - 1)
      s.cursor.column
  else (s.computes [row - 1]).setCursor (row - 1) s.cursor.column

def sr (s : Screen) : Screen :=
  if s.cursor.row = s.scrollTop then s.scrollDown s.scrollTop s.scrollBottom 1
  else { s with cursor := s.cursor.move 1 0 }

/-- The bottom is counted like the top, from zero, but names the row behind the region. -/
def decstbm (s : Screen) (params : List Int) : Screen :=
  let top := position params 0 0
  let bottom := position params 1 (s.rowCount - 1)
  let s := s.computes [top, bottom]
  if 0 < s.originRow then
    s.setScrollRegion (clamp top 0 (s.rowCount - 1)) (clamp bottom 0 (s.rowCount - 1))
  else s.setScrollRegion top bottom

def ed (s : Screen) (params : List Int) : Screen :=
  match params.headD 0 with
  | 0 => s.eraseToEnd s.cursor.row s.cursor.column
  | 1 => s.eraseToStart s.cursor.row s.cursor.column
  | 2 => s.eraseScreen
  | 3 => s.eraseScreenAndScrollback
  | _ => s

def el (s : Screen) (params : List Int) : Screen :=
  match params.headD 0 with
  | 0 => s.eraseLineToEnd s.cursor.row s.cursor.column
  | 1 => s.eraseLineToStart s.cursor.row s.cursor.column
  | 2 => s.eraseLine s.cursor.row
  | _ => s

/-- The object of the current attributes is edited where it is; then its value is interned. -/
def sgr (s : Screen) (params : List Int) : Screen :=
  let pen := s.currentAttributes
  let s := { s with store := s.store.assign pen (sgrEdit (s.store.value pen) params) }
  let found := s.intern [] (s.store.value pen)
  { found.2 with currentAttributes := found.1 }

structure Rectangle where
  top : Int
  left : Int
  bottom : Int
  right : Int

/-- Coordinates clamped to the screen and put in order. -/
def rectangle (s : Screen) (top left bottom right : Int) : Rectangle :=
  let top := clamp top 0 (s.rowCount - 1)
  let left := clamp left 0 (s.columnCount - 1)
  let bottom := clamp bottom 0 (s.rowCount - 1)
  let right := clamp right 0 (s.columnCount - 1)
  { top := min top bottom, left := min left right, bottom := max top bottom,
    right := max left right }

def eachCell (area : Rectangle) (f : Int → Int → Screen → Screen) (s : Screen) : Screen :=
  upTo area.top (area.bottom + 1) (fun r s => upTo area.left (area.right + 1) (f r) s) s

def decfra (s : Screen) (params : List Int) : Screen :=
  let ch := (params.headD 0 % 4294967296).toNat
  let area := s.rectangle (position params 1 0) (position params 2 0)
    (position params 3 (s.rowCount - 1)) (position params 4 (s.columnCount - 1))
  (s.computes (positions params [1, 2, 3, 4])).eachCell area
    (modifyAt fun cell => { cell with char := ch })

def deccra (s : Screen) (params : List Int) : Screen :=
  let src := s.rectangle (position params 0 0) (position params 1 0)
    (position params 2 (s.rowCount - 1)) (position params 3 (s.columnCount - 1))
  let dstTop := clamp (position params 5 0) 0 (s.rowCount - 1)
  let dstLeft := clamp (position params 6 0) 0 (s.columnCount - 1)
  let width := src.right - src.left + 1
  let height := src.bottom - src.top + 1
  let s := s.computes (positions params [0, 1, 2, 3, 5, 6] ++ [dstTop + height, dstLeft + width])
  let dstBottom := min (dstTop + height - 1) (s.rowCount - 1)
  let dstRight := min (dstLeft + width - 1) (s.columnCount - 1)
  upTo 0 (min height (dstBottom - dstTop + 1)) (fun row s =>
    upTo 0 (min width (dstRight - dstLeft + 1)) (fun col s =>
      s.copyAt (src.top + row) (src.left + col) (dstTop + row) (dstLeft + col)) s) s

def reverseCell (row col : Int) (s : Screen) : Screen :=
  if s.hasCell row col then
    let cell := s.activeGrid.cell row col
    let attr := s.store.value (shown cell)
    let modified := { attr with flags := { attr.flags with inverse := !attr.flags.inverse } }
    let found := s.intern [] modified
    let written := found.2.setAttributes [found.1] (found.2.store.value found.1) cell
    written.2.modifyCell (fun _ => written.1) row col
  else s

def decrara (s : Screen) (params : List Int) : Screen :=
  let area := s.rectangle (position params 0 0) (position params 1 0)
    (position params 2 (s.rowCount - 1)) (position params 3 (s.columnCount - 1))
  (s.computes (positions params [0, 1, 2, 3])).eachCell area reverseCell

/-- Both cells are taken through `cellAt` without a look at the pointers. -/
def copyDeref (s : Screen) (row src dst : Int) : Screen :=
  let t := s.derefAt (fun _ => s.activeGrid.cell row src) row dst
  { t with safe := t.safe && s.hasCell row src }

def ich (s : Screen) (params : List Int) : Screen :=
  let count := params.headD 1
  let row := s.cursor.row
  let col := s.cursor.column
  let maxCol := s.columnCount
  if maxCol ≤ col then s
  else
    let s := s.computes [col + count]
    let s := downTo (maxCol - 1) (col + count) (fun i s => s.copyDeref row (i - count) i) s
    upTo col (min (col + count) maxCol) (fun i s => s.derefAt Cell.reset row i) s

def np (s : Screen) (params : List Int) : Screen := s.moveBy (s.rowCount * params.headD 1) 0

def pp (s : Screen) (params : List Int) : Screen :=
  (s.computes [s.rowCount * params.headD 1]).moveBy (-(s.rowCount * params.headD 1)) 0

def decscusr (s : Screen) (params : List Int) : Screen :=
  let value := params.headD 0
  if 0 ≤ value ∧ value ≤ 6 then { s with cursor := s.cursor.setStyle value } else s

/-- `do ++col; while (col < bound && !isTabStop(col));` with enough turns. -/
def tabRight (s : Screen) (bound : Int) : Nat → Int → Int
  | 0, col => col + 1
  | n + 1, col =>
    if col + 1 < bound ∧ s.isTabStop (col + 1) = false then s.tabRight bound n (col + 1)
    else col + 1

/-- `do --col; while (col > 0 && !isTabStop(col));` with enough turns. -/
def tabLeft (s : Screen) : Nat → Int → Int
  | 0, col => col - 1
  | n + 1, col =>
    if 0 < col - 1 ∧ s.isTabStop (col - 1) = false then s.tabLeft n (col - 1) else col - 1

def tabsRight (s : Screen) : Nat → Int → Int
  | 0, col => col
  | n + 1, col =>
    let next := s.tabRight s.columnCount (s.columnCount - col).toNat col
    if s.columnCount ≤ next then next else s.tabsRight n next

def tabsLeft (s : Screen) : Nat → Int → Int
  | 0, col => col
  | n + 1, col => if 0 < col then s.tabsLeft n (s.tabLeft col.toNat col) else col

def cht (s : Screen) (params : List Int) : Screen :=
  s.setCursor s.cursor.row (s.tabsRight (params.headD 1).toNat s.cursor.column)

def cbt (s : Screen) (params : List Int) : Screen :=
  s.setCursor s.cursor.row (max 0 (s.tabsLeft (params.headD 1).toNat s.cursor.column))

def tbc (s : Screen) (params : List Int) : Screen :=
  match params.headD 0 with
  | 0 => s.clearTabStop s.cursor.column
  | 3 => s.clearAllTabStops
  | _ => s

def ctc (s : Screen) (params : List Int) : Screen :=
  match params.headD 0 with
  | 0 => s.setTabStop s.cursor.column
  | 2 => s.clearTabStop s.cursor.column
  | 5 => s.clearAllTabStops
  | _ => s

def dispatchPrivate (set : Bool) (s : Screen) (code : Int) : Screen :=
  match code with
  | 6 => s.setOriginMode set
  | 7 => { s with wraparound := set }
  | 1047 => if set then s.enterAlternateGrid else s.exitAlternateGrid
  | 1049 => if set then s.saveCursor.enterAlternateGrid else s.exitAlternateGrid.restoreCursor
  | 1048 => if set then s.saveCursor else s.restoreCursor
  | _ => s

def dispatchPublic (set : Bool) (s : Screen) (code : Int) : Screen :=
  match code with
  | 4 => { s with insertMode := set }
  | 18 => { s with autoLinefeed := set }
  | _ => s

def setMode (s : Screen) (privateMode set : Bool) (params : List Int) : Screen :=
  params.foldl (if privateMode then dispatchPrivate set else dispatchPublic set) s

/-- The size that a window operation asks for, in cells. -/
def requestedSize (params : List Int) : Option (Int × Int) :=
  match params with
  | 4 :: height :: width :: _ => if 0 < height ∧ 0 < width then some (height, width) else none
  | 8 :: height :: width :: _ =>
    if 0 < height.tdiv 10 ∧ 0 < width.tdiv 6 then some (height.tdiv 10, width.tdiv 6) else none
  | _ => none

def windowManip (s : Screen) (params : List Int) : Screen :=
  match requestedSize params with
  | some size => s.resize size.1 size.2
  | none => if params.head? = some 18 then s.computes [s.rowCount * 10, s.columnCount * 6] else s

/-- `DispatchCSI::dispatch` -/
def dispatchCSI (s : Screen) (privateMode : Bool) (code : CsiCode) (params : List Int) : Screen :=
  match code with
  | .CUU => s.cuu params
  | .CUD => s.cud params
  | .CUF | .HPR => s.cuf params
  | .CUB => s.cub params
  | .CNL => s.cnl params
  | .CPL => s.cpl params
  | .CHA => s.cha params
  | .CUP | .HVP => s.cup params
  | .VPA => s.vpa params
  | .SCP => s.saveCursor
  | .RCP => s.restoreCursor
  | .IL => s.insertLines s.cursor.row (params.headD 1)
  | .DL => s.deleteLines s.cursor.row (params.headD 1)
  | .SU => s.scrollUpIn s.scrollTop s.scrollBottom (params.headD 1)
  | .SD => s.scrollDown s.scrollTop s.scrollBottom (params.headD 1)
  | .SR => s.sr
  | .DECSTBM => s.decstbm params
  | .SGR => s.sgr params
  | .DECSCA => { s with protectionMode := params.headD 0 }
  | .ED => s.ed params
  | .EL => s.el params
  | .EF => s.eraseField s.cursor.row s.cursor.column (params.headD 0)
  | .EA => s.eraseArea (params.headD 0)
  | .DCH => s.deleteChars (params.headD 1)
  | .ECH => s.eraseChars (params.headD 1)
  | .REP => s.repeatLastChar (params.headD 1)
  | .CHT => s.cht params
  | .CBT => s.cbt params
  | .TBC => s.tbc params
  | .CTC => s.ctc params
  | .SM => s.setMode privateMode true params
  | .RM => s.setMode privateMode false params
  | .DECCRA => s.deccra params
  | .DECFRA => s.decfra params
  | .DECRARA => s.decrara params
  | .WINDOW_MANIP => s.windowManip params
  | .DECSWL => s.setLineWidth s.cursor.row 1
  | .DECDWL => s.setLineWidth s.cursor.row 2
  | .DECDHL_TOP => (s.setLineHeight s.cursor.row 2).setLineHeightPosition s.cursor.row true
  | .DECDHL_BOTTOM => (s.setLineHeight s.cursor.row 2).setLineHeightPosition s.cursor.row false
  | .ICH => s.ich params
  | .NP => s.np params
  | .PP => s.pp params
  | .DECSCUSR => s.decscusr params
  | .SEE | .CPR | .DA | .MC | .DSR | .DECLL | .PASTE_END | .DA2 | .DA3 | .UNKNOWN => s

/-- `DispatchESC::dispatch` -/
def dispatchESC (s : Screen) (code designator : UInt8) : Screen :=
  match Char.ofNat code.toNat with
  | '(' =>
    if s.charset.g0 ≠ designator then { s with charset := s.charset.selectCharset 0 designator }
    else s
  | ')' => { s with charset := s.charset.selectCharset 1 designator }
  | '*' => { s with charset := s.charset.selectCharset 2 designator }
  | '+' => { s with charset := s.charset.selectCharset 3 designator }
  | 'c' => s.reset
  | '7' => s.saveCursor
  | '8' => s.restoreCursor
  | 'D' => s.moveCursor 1 0
  | 'E' => s.setCursor (s.cursor.row + 1) 0
  | 'M' => s.moveCursor (-1) 0
  | 'H' => s.setTabStop s.cursor.column
  | _ => s

def hexDigit (byte : UInt8) : Option Nat :=
  let n := byte.toNat
  if 48 ≤ n ∧ n ≤ 57 then some (n - 48)
  else if 97 ≤ n ∧ n ≤ 102 then some (n - 87)
  else if 65 ≤ n ∧ n ≤ 70 then some (n - 55)
  else none

/-- `from_chars` over two characters stops at the second where it is not a digit. -/
def parseByte (first second : UInt8) : Option UInt8 :=
  match hexDigit first, hexDigit second with
  | some high, some low => some (UInt8.ofNat (16 * high + low))
  | some high, none => some (UInt8.ofNat high)
  | none, _ => none

def parseColorString (text : List UInt8) : Option RGBColor :=
  match text with
  | [35, r1, r2, g1, g2, b1, b2] => do
    return { r := ← parseByte r1 r2, g := ← parseByte g1 g2, b := ← parseByte b1 b2 }
  | [35, r1, r2, g1, g2, b1, b2, a1, a2] => do
    return { r := ← parseByte r1 r2, g := ← parseByte g1 g2, b := ← parseByte b1 b2,
             a := ← parseByte a1 a2 }
  | _ => none

/-- `Cell::setForeground` and `setBackground` on the cell under the cursor. -/
def recolor (paint : Attributes → Attributes) (s : Screen) : Screen :=
  let row := s.cursor.row
  let col := s.cursor.column
  let cell := s.activeGrid.cell row col
  let found := s.intern [] (paint (s.store.value (shown cell)))
  found.2.derefAt (fun cell => { cell with attr := some found.1 }) row col

/-- `DispatchOSC::dispatch` -/
def dispatchOSC (s : Screen) (code : Int) (data : List UInt8) : Screen :=
  match code with
  | 10 => match parseColorString data with
    | some color => s.recolor (Attributes.setForeground color)
    | none => s
  | 11 => match parseColorString data with
    | some color => s.recolor (Attributes.setBackground color)
    | none => s
  | 12 => { s with cursor := { s.cursor with customColor := parseColorString data } }
  | 104 =>
    (s.recolor (Attributes.setForeground { r := 0, g := 255, b := 0 })).recolor
      (Attributes.setBackground { r := 0, g := 0, b := 0 })
  | 112 => { s with cursor := { s.cursor with customColor := none } }
  | _ => s

def lineFeed (s : Screen) : Screen :=
  if s.cursor.row = s.scrollBottom - 1 then s.scrollUp else s.moveCursor 1 0

def tab (s : Screen) : Screen :=
  let maxCol := s.columnCount
  let col := s.tabRight (maxCol - 1) (maxCol - s.cursor.column).toNat s.cursor.column
  s.setCursor s.cursor.row (if maxCol ≤ col then maxCol - 1 else col)

/-- The ground state of `handleCodepoint`, with the clamp at its end. -/
def handleGround (s : Screen) (ch : Nat) : Screen :=
  let s :=
    if ch = 0x0D then s.setCursor s.cursor.row 0
    else if ch = 0x0A then s.lineFeed
    else if ch = 0x08 then s.moveCursor 0 (-1)
    else if ch = 0x09 then s.tab
    else if 0x20 ≤ ch then s.putChar (s.charset.applyCharset ch)
    else s
  s.setCursor (min s.cursor.row (s.rowCount - 1)) (min s.cursor.column (s.columnCount - 1))

end Screen

/-- What the parser makes out of its input. -/
inductive Command where
  | ground (ch : Nat)
  | csi (privateMode : Bool) (code : CsiCode) (params : List Int)
  | esc (code designator : UInt8)
  | osc (code : Int) (data : List UInt8)
  deriving DecidableEq

namespace Screen

def execute (s : Screen) : Command → Screen
  | .ground ch => s.handleGround ch
  | .csi privateMode code params => s.dispatchCSI privateMode code params
  | .esc code designator => s.dispatchESC code designator
  | .osc code data => s.dispatchOSC code data

/-- The one command that can leave by an exception. -/
def throws (s : Screen) : Command → Bool
  | .esc code _ => Char.ofNat code.toNat == 'c' && s.resetThrows
  | _ => false

end Screen

end JobAnsi
