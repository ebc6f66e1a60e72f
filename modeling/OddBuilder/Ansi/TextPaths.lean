import OddBuilder.Ansi.Typing

/-!
# The two ways of a text

Text goes to the screen through `putChar` or through the parser. Where the parser
names a place, `putChar` moves by its numbers, and only `putChar` keeps a wrap
pending. `agrees` says of a step that it comes out the same.
-/

namespace JobAnsi

open Utf8Decoder

namespace Screen

variable {s a b : Screen} {ch : Nat}

theorem settled_self (h : s.wrapPending = false) : s.settled = s := by
  obtain ⟨⟩ := s
  simp only [settled] at *
  rw [h]

theorem settled_saveLines (s : Screen) (top lines : Int) :
    s.settled.saveLines top lines = (s.saveLines top lines).settled := by
  unfold saveLines
  split
  · rw [if_pos (by assumption)]
    exact CountedLoop.upTo_comm (f := settled)
      (fun i s => show s.settled.saveLine (top + i) = (s.saveLine (top + i)).settled from rfl) s
  · rw [if_neg (by assumption)]

theorem settled_cursorIntoRegion (s : Screen) (top bottom : Int) :
    s.settled.cursorIntoRegion top bottom = (s.cursorIntoRegion top bottom).settled := by
  unfold cursorIntoRegion
  rw [show s.settled.cursor = s.cursor from rfl]
  split_ifs <;> rfl

theorem settled_scrollUpIn (s : Screen) (top bottom lines : Int) :
    s.settled.scrollUpIn top bottom lines = (s.scrollUpIn top bottom lines).settled := by
  unfold scrollUpIn
  split
  · rfl
  · rw [settled_saveLines, ← settled_cursorIntoRegion]
    rfl

theorem settled_setAttributes (s : Screen) (held : List Ref) (attr : Attributes) (cell : Cell) :
    s.settled.setAttributes held attr cell =
      ((s.setAttributes held attr cell).1, (s.setAttributes held attr cell).2.settled) := by
  unfold setAttributes
  rw [show s.settled.store = s.store from rfl]
  split <;> rfl

theorem settled_advance (hwrap : s.wraparound = false) (col : Int) :
    s.settled.advance col = (s.advance col).settled := by
  unfold advance
  rw [show s.settled.activeGrid = s.activeGrid from rfl, show s.settled.wraparound = false from hwrap,
    hwrap]
  split <;> rfl

theorem wraparound_setAttributes (s : Screen) (held : List Ref) (attr : Attributes) (cell : Cell) :
    (s.setAttributes held attr cell).2.wraparound = s.wraparound := by
  unfold setAttributes
  split <;> rfl

theorem settled_writeCell (hwrap : s.wraparound = false) (row col : Int) (ch : Nat) :
    s.settled.writeCell row col ch = (s.writeCell row col ch).settled := by
  unfold writeCell
  rw [show s.settled.store = s.store from rfl,
    show s.settled.currentAttributes = s.currentAttributes from rfl,
    show s.settled.activeGrid = s.activeGrid from rfl]
  rw [settled_setAttributes]
  have hadvance := settled_advance
    (s := (s.setAttributes [] (s.store.value s.currentAttributes)
      { s.activeGrid.cell row col with char := ch }).2.modifyCell (fun _ => s.protect
        (s.setAttributes [] (s.store.value s.currentAttributes)
          { s.activeGrid.cell row col with char := ch }).1) row col)
    ((wraparound_setAttributes _ _ _ _).trans hwrap) col
  exact hadvance

/-- Without wraparound a pending wrap makes no difference. -/
theorem settled_putPrintable (hwrap : s.wraparound = false) (hinsert : s.insertMode = false)
    (ch : Nat) : s.settled.putPrintable ch = (s.putPrintable ch).settled := by
  have hnow : s.wrapNow = s := by simp [wrapNow, hwrap]
  have hnow' : s.settled.wrapNow = s.settled := by simp [wrapNow, settled]
  have hroom : s.makeRoom = s := by simp [makeRoom, hinsert]
  have hroom' : s.settled.makeRoom = s.settled := by simp [makeRoom, settled, hinsert]
  simp only [putPrintable, hnow, hnow', hroom, hroom']
  rw [show s.settled.cursor = s.cursor from rfl, show s.settled.hasCell = s.hasCell from rfl]
  split
  · unfold writeChar
    rw [show s.settled.activeGrid = s.activeGrid from rfl, show s.settled.cursor = s.cursor from rfl]
    split
    · rfl
    · exact settled_writeCell hwrap _ _ _
  · rfl

/-- The cursor put to a place, with no wrap pending. -/
def placed (s : Screen) (row col : Int) : Screen :=
  { s with wrapPending := false, cursor := { s.cursor with row := row, column := col } }

theorem placed_self (s : Screen) : s.placed s.cursor.row s.cursor.column = s.settled := rfl

/-- A move by distances that the margins and the right edge cut off. -/
theorem moveCursor_placed (h : s.Geometry) {rowDelta colDelta row col : Int}
    (hint : [s.cursor.row + rowDelta, s.cursor.column + colDelta].all inInt = true)
    (hrow : clamp (s.cursor.row + rowDelta) s.originRow (s.originBottom - 1) = row)
    (hcol : clamp (s.cursor.column + colDelta) 0 (s.columnCount - 1) = col)
    (hin : (0 ≤ row ∧ row < s.rowCount) ∧ 0 ≤ col ∧ col < s.columnCount) :
    s.moveCursor rowDelta colDelta = s.placed row col := by
  have hcomputes : s.computes [s.cursor.row + rowDelta, s.cursor.column + colDelta] = s := by
    rw [computes, hint, Bool.and_true]
  rw [moveCursor, moveCursorRelative, hcomputes, hrow, hcol, setCursor_eq h hin.1 hin.2, placed]

theorem origin_bounds (h : s.Geometry) :
    0 ≤ s.originRow ∧ s.originRow ≤ s.originBottom - 1 ∧ s.originBottom ≤ s.rowCount := by
  have htop := h.top_nonneg
  have hregion := h.top_lt_bottom
  have hbottom := h.bottom_le
  unfold originRow originBottom
  rw [h.formed.active_rows]
  split <;> omega

/-- `a` goes by `putChar`, `b` through the parser. The same character comes out the same: at both
edges of the moves, where doubling the row or the column changes nothing; for a character, where
the wrap that `putChar` has pending is one for the parser too. -/
def agrees (a b : Screen) (ch : Nat) : Bool :=
  let row := a.cursor.row
  let col := a.cursor.column
  let low := a.originRow
  let last := a.originBottom - 1
  if ch = 0x0D then col = 0 ∧ (row = last ∨ row = 0 ∧ low = 0) ∧ inInt (row + row) = true
  else if ch = 0x0A then
    (col = 0 ∨ col = a.columnCount - 1) ∧ inInt (col + col) = true ∧
      (row + 1 < a.scrollBottom ∧ (row = 0 ∨ last ≤ row + 1 ∨ row + (row + 1) ≤ low) ∧
          inInt (row + (row + 1)) = true ∨
        row + 1 = a.scrollBottom ∧ (row = last ∨ row = 0 ∧ low = 0) ∧ inInt (row + row) = true)
  else if ch = 0x08 then col = 0 ∧ low ≤ row ∧ row ≤ last
  else !a.wraparound || a.wrapPending == b.wrapPending

/-- The screen of the parser has no wrap pending, and is the other one besides. -/
def Twin (a b : Screen) : Prop := b = a ∨ b = a.settled

theorem Twin.cursor_eq (h : a.Twin b) : b.cursor = a.cursor := by
  rcases h with rfl | rfl <;> rfl

theorem Twin.geometry (h : a.Twin b) (ha : a.Geometry) : b.Geometry := by
  rcases h with rfl | rfl
  · exact ha
  · exact ha.of_frame rfl

theorem Twin.placed_eq (h : a.Twin b) (row col : Int) : b.placed row col = a.placed row col := by
  rcases h with rfl | rfl <;> rfl

/-- The lower and upper ends of what a screen counts. -/
structure Counts (s : Screen) : Prop where
  geometry : s.Geometry
  rows_le : s.rowCount ≤ 2147483647
  columns_le : s.columnCount ≤ 2147483647

theorem clamp_double {row low last : Int} (hle : low ≤ last) (hrow : 0 ≤ row)
    (h : row = last ∨ row = 0 ∧ low = 0) : clamp (row + row) low last = row := by
  unfold clamp
  split_ifs <;> omega

/-- At the left edge and at the right one. -/
theorem clamp_edge {col width : Int} (hcol : 0 ≤ col ∧ col < width)
    (h : col = 0 ∨ col = width - 1) : clamp (col + col) 0 (width - 1) = col := by
  unfold clamp
  split_ifs <;> omega

theorem clamp_next {row low last : Int} (hle : low ≤ last) (hrow : 0 ≤ row)
    (h : row = 0 ∨ last ≤ row + 1 ∨ row + (row + 1) ≤ low) :
    clamp (row + (row + 1)) low last = clamp (row + 1) low last := by
  unfold clamp
  split_ifs <;> omega

theorem putChar_return (hfeed : s.autoLinefeed = false) :
    s.putChar 0x0D = s.moveCursor s.cursor.row 0 := by
  rw [putChar, if_pos rfl]
  refine if_neg ?_
  rw [Bool.not_eq_true]
  exact hfeed

theorem putChar_back (s : Screen) : s.putChar 0x08 =
    if 0 < s.cursor.column then s.moveCursor s.cursor.row (s.cursor.column - 1) else s.settled := rfl

theorem putChar_lineFeed (s : Screen) : s.putChar 0x0A =
    s.settled.scrollAtBottom.moveCursor (min (s.settled.scrollAtBottom.cursor.row + 1)
      (s.settled.scrollAtBottom.scrollBottom - 1)) s.settled.scrollAtBottom.cursor.column := rfl

/-- The clamp behind the parser's controls finds the cursor inside. -/
theorem clamped_placed (h : s.Geometry) {row col : Int}
    (hin : (0 ≤ row ∧ row < s.rowCount) ∧ 0 ≤ col ∧ col < s.columnCount) :
    (s.placed row col).setCursor (min row (s.rowCount - 1)) (min col (s.columnCount - 1)) =
      s.placed row col := by
  have hplaced : (s.placed row col).Geometry := by
    rw [← show s.setCursor row col = s.placed row col from setCursor_eq h hin.1 hin.2]
    exact h.setCursor row col
  exact setCursor_clamped hplaced

theorem agrees_return (ha : a.Counts) (hfeed : a.autoLinefeed = false) (h : a.Twin b)
    (hagrees : a.agrees b 0x0D = true) : b.handleGround 0x0D = (a.putChar 0x0D).settled := by
  have hrow := ha.geometry.row_bounds
  have hcolumns := ha.geometry.formed.columns_pos
  have hb := h.geometry ha.geometry
  obtain ⟨-, hle, -⟩ := origin_bounds ha.geometry
  simp only [agrees, if_true, decide_eq_true_eq] at hagrees
  obtain ⟨hcol, hedge, hint⟩ := hagrees
  have hput : a.putChar 0x0D = a.placed a.cursor.row 0 := by
    rw [putChar_return hfeed]
    refine moveCursor_placed ha.geometry ?_ (clamp_double hle hrow.1 hedge) ?_
      ⟨hrow, le_rfl, hcolumns⟩
    · rw [hcol, List.all_cons, hint]
      decide
    · rw [hcol]
      exact clamp_self le_rfl (by omega)
  have hin : (0 ≤ b.cursor.row ∧ b.cursor.row < b.rowCount) ∧ 0 ≤ (0 : Int) ∧
      0 < b.columnCount := ⟨hb.row_bounds, le_rfl, hb.formed.columns_pos⟩
  have hground : b.handleGround 0x0D = b.placed b.cursor.row 0 := by
    refine Eq.trans ?_ (clamped_placed hb hin)
    unfold handleGround
    rw [setCursor_eq hb hin.1 hin.2]
    rfl
  rw [hput, hground, h.cursor_eq, h.placed_eq]
  rfl

theorem agrees_back (ha : a.Counts) (h : a.Twin b) (hagrees : a.agrees b 0x08 = true) :
    b.handleGround 0x08 = (a.putChar 0x08).settled := by
  have hb := h.geometry ha.geometry
  have hcolumns := hb.formed.columns_pos
  have hrows := ha.rows_le
  have hrowBounds := hb.row_bounds
  have hcursor := h.cursor_eq
  simp only [agrees, Nat.reduceEqDiff, if_false, if_true, decide_eq_true_eq] at hagrees
  obtain ⟨hcol, hlow, hlast⟩ := hagrees
  have horigin : b.originRow = a.originRow ∧ b.originBottom = a.originBottom ∧
      b.rowCount = a.rowCount := by
    rcases h with rfl | rfl <;> exact ⟨rfl, rfl, rfl⟩
  have hput : a.putChar 0x08 = a.settled := by
    rw [putChar_back, if_neg (by omega)]
  have hmove : b.moveCursor 0 (-1) = b.placed b.cursor.row 0 := by
    rw [hcursor]
    refine moveCursor_placed hb ?_ ?_ ?_ ⟨by rwa [← hcursor], le_rfl, hcolumns⟩
    · simp only [List.all_cons, List.all_nil, Bool.and_true, Bool.and_eq_true, inInt_iff, hcursor]
      rw [hcursor] at hrowBounds
      omega
    · rw [hcursor, Int.add_zero, horigin.1, horigin.2.1]
      exact clamp_self hlow hlast
    · rw [hcursor]
      unfold clamp
      split_ifs <;> omega
  have hground : b.handleGround 0x08 = b.placed b.cursor.row 0 := by
    refine Eq.trans ?_ (clamped_placed hb ⟨hrowBounds, le_rfl, hcolumns⟩)
    unfold handleGround
    rw [hmove]
    rfl
  rw [hground, hput, h.placed_eq, hcursor, ← hcol]
  rfl

theorem agrees_lineFeed (ha : a.Counts) (h : a.Twin b) (hagrees : a.agrees b 0x0A = true) :
    b.handleGround 0x0A = (a.putChar 0x0A).settled := by
  have hgeometry := ha.geometry
  have hb := h.geometry hgeometry
  have hrow := hgeometry.row_bounds
  have hcolumn := hgeometry.column_bounds
  have hrowsLe := ha.rows_le
  have hcolumnsLe := ha.columns_le
  have hregion := hgeometry.top_lt_bottom
  obtain ⟨hlow, hle, hlast⟩ := origin_bounds hgeometry
  simp only [agrees, Nat.reduceEqDiff, if_false, if_true, decide_eq_true_eq] at hagrees
  obtain ⟨hedge, hdouble, hrows⟩ := hagrees
  have hsame : b.cursor = a.cursor ∧ b.originRow = a.originRow ∧
      b.originBottom = a.originBottom ∧ b.scrollBottom = a.scrollBottom ∧
      b.scrollTop = a.scrollTop ∧ b.rowCount = a.rowCount ∧ b.columnCount = a.columnCount := by
    rcases h with rfl | rfl <;> exact ⟨rfl, rfl, rfl, rfl, rfl, rfl, rfl⟩
  obtain ⟨hcursor, horiginRow, horiginBottom, hscrollBottom, hscrollTop, hrowCount, hcolumnCount⟩ :=
    hsame
  have hline : b.handleGround 0x0A = b.lineFeed.setCursor
      (min b.lineFeed.cursor.row (b.lineFeed.rowCount - 1))
      (min b.lineFeed.cursor.column (b.lineFeed.columnCount - 1)) := rfl
  rw [putChar_lineFeed, hline]
  rcases hrows with ⟨habove, hnext, hint⟩ | ⟨hat, hends, hint⟩
  · -- Above the bottom margin both only move.
    have hstay : a.settled.scrollAtBottom = a.settled := if_neg (by
      rw [show a.settled.scrollBottom = a.scrollBottom from rfl,
        show a.settled.cursor = a.cursor from rfl]
      omega)
    have hclamp : 0 ≤ clamp (a.cursor.row + 1) a.originRow (a.originBottom - 1) ∧
        clamp (a.cursor.row + 1) a.originRow (a.originBottom - 1) < a.rowCount := by
      have hbounds := clamp_bounds (n := a.cursor.row + 1) hle
      omega
    have hput : a.settled.moveCursor (a.cursor.row + 1) a.cursor.column =
        a.placed (clamp (a.cursor.row + 1) a.originRow (a.originBottom - 1)) a.cursor.column := by
      refine moveCursor_placed (s := a) hgeometry ?_ (clamp_next hle hrow.1 hnext)
        (clamp_edge hcolumn hedge) ⟨hclamp, hcolumn⟩
      rw [List.all_cons, List.all_cons, hint, hdouble]
      rfl
    have hmove : b.lineFeed =
        b.placed (clamp (a.cursor.row + 1) a.originRow (a.originBottom - 1)) a.cursor.column := by
      rw [lineFeed, if_neg (by rw [hcursor]; omega)]
      refine moveCursor_placed hb ?_ ?_ ?_ ?_
      · simp only [List.all_cons, List.all_nil, Bool.and_true, Bool.and_eq_true, inInt_iff, hcursor]
        omega
      · rw [hcursor, horiginRow, horiginBottom]
      · rw [hcursor, Int.add_zero]
        exact clamp_self hcolumn.1 (by omega)
      · rw [hrowCount, hcolumnCount]
        exact ⟨hclamp, hcolumn⟩
    rw [hstay, show a.settled.cursor = a.cursor from rfl,
      show a.settled.scrollBottom = a.scrollBottom from rfl,
      min_eq_left (show a.cursor.row + 1 ≤ a.scrollBottom - 1 by omega), hput, hmove]
    refine (clamped_placed hb ?_).trans (h.placed_eq _ _)
    rw [hrowCount, hcolumnCount]
    exact ⟨hclamp, hcolumn⟩
  · -- At the bottom margin both scroll, and the cursor stays.
    have hscroll : a.settled.scrollAtBottom = a.scrollUp.settled := by
      rw [scrollAtBottom, if_pos (by
        rw [show a.settled.scrollBottom = a.scrollBottom from rfl,
          show a.settled.cursor = a.cursor from rfl]
        omega)]
      exact settled_scrollUpIn a a.scrollTop a.scrollBottom 1
    have hkept : a.scrollUp.frame = a.frame := by
      have hinto : ∀ u : Screen, u.cursor = a.cursor →
          u.cursorIntoRegion a.scrollTop a.scrollBottom = u := by
        intro u hu
        rw [cursorIntoRegion, hu, if_neg (by omega), if_neg (by omega)]
      have hcursor' : ((a.saveLines a.scrollTop 1).deleteFrom a.scrollTop 1 a.scrollBottom).frame =
          a.frame := (frame_deleteFrom _ _ _ _).trans (frame_saveLines _ _ _)
      rw [scrollUp, scrollUpIn, if_neg (by omega), hinto _ (frame_eq_iff.1 hcursor').2.2.1]
      exact hcursor'
    have hu := hgeometry.of_frame hkept
    obtain ⟨hsize, -, hucursor, hutop, hubottom⟩ := frame_eq_iff.1 hkept
    obtain ⟨hurows, hucolumns, -⟩ := Grid.size_eq_iff.1 hsize
    have huorigin : a.scrollUp.originRow = a.originRow ∧
        a.scrollUp.originBottom = a.originBottom := by
      have hmode : a.scrollUp.originMode = a.originMode :=
        scrollUpIn_same originMode (fun _ _ => rfl) (fun _ _ => rfl) (fun _ _ _ => rfl) a _ _ _
      have hactive : a.scrollUp.activeGrid.rows = a.activeGrid.rows := by
        rw [hu.formed.active_rows, hgeometry.formed.active_rows]
        exact hurows
      rw [originRow, originBottom, hmode, hutop, hubottom, hactive]
      exact ⟨rfl, rfl⟩
    have hput : a.scrollUp.settled.moveCursor (a.scrollBottom - 1) a.cursor.column =
        a.scrollUp.settled := by
      refine (@moveCursor_placed a.scrollUp hu _ _ a.cursor.row a.cursor.column ?_ ?_ ?_ ?_).trans ?_
      · rw [hucursor, show a.scrollBottom - 1 = a.cursor.row by omega, List.all_cons, List.all_cons,
          hint, hdouble]
        rfl
      · rw [hucursor, huorigin.1, huorigin.2, show a.scrollBottom - 1 = a.cursor.row by omega]
        exact clamp_double hle hrow.1 hends
      · rw [hucursor, show a.scrollUp.columnCount = a.columnCount from hucolumns]
        exact clamp_edge hcolumn hedge
      · rw [← hucursor]
        exact ⟨hu.row_bounds, hu.column_bounds⟩
      · rw [← hucursor]
        exact placed_self a.scrollUp
    have hmove : b.lineFeed.settled = a.scrollUp.settled ∧ b.lineFeed.Geometry := by
      have hfeed : b.lineFeed = b.scrollUp := by
        rw [lineFeed, if_pos (by rw [hcursor]; omega)]
      rw [hfeed]
      refine ⟨?_, hb.scrollUpIn _ _ _⟩
      rcases h with rfl | rfl
      · rfl
      · rw [show a.settled.scrollUp = a.scrollUp.settled from settled_scrollUpIn a _ _ _]
        rfl
    rw [hscroll, show a.scrollUp.settled.cursor = a.scrollUp.cursor from rfl, hucursor,
      show a.scrollUp.settled.scrollBottom = a.scrollUp.scrollBottom from rfl, hubottom,
      min_eq_right (show a.scrollBottom - 1 ≤ a.cursor.row + 1 by omega), hput,
      setCursor_clamped hmove.2, hmove.1]
    rfl

theorem agrees_printable (ha : a.Counts) (hinsert : a.insertMode = false) (h : a.Twin b)
    (hch : 0x20 ≤ ch) (hagrees : a.agrees b ch = true) :
    b.handleGround ch = (a.putChar ch).settled := by
  rw [handleGround_printable (h.geometry ha.geometry) hch, putChar_printable a hch]
  rcases h with rfl | rfl
  · rfl
  · cases hpending : a.wrapPending with
    | false => rw [settled_self hpending]
    | true =>
      have hwrap : a.wraparound = false := by
        rw [agrees, if_neg (by omega), if_neg (by omega), if_neg (by omega), hpending] at hagrees
        simpa [settled] using hagrees
      rw [settled_putPrintable hwrap hinsert]
      rfl

/-- Printable characters, carriage returns, line feeds and backspaces. -/
def TextChar (ch : Nat) : Prop := (0x20 ≤ ch ∧ Scalar ch) ∨ ch = 0x0D ∨ ch = 0x0A ∨ ch = 0x08

instance (ch : Nat) : Decidable (TextChar ch) := inferInstanceAs (Decidable (_ ∨ _))

theorem TextChar.scalar (h : TextChar ch) : Scalar ch ∧ ch ≠ 0x1B := by
  rcases h with ⟨hch, hscalar⟩ | rfl | rfl | rfl
  · exact ⟨hscalar, by omega⟩
  · decide
  · decide
  · decide

/-- The settings that both ways leave alone, and the size. -/
def settings (s : Screen) : Bool × Bool × (Int × Int × Nat) :=
  (s.autoLinefeed, s.insertMode, s.primaryGrid.size)

theorem settings_keeps (hframe : b.frame = a.frame) (hfeed : b.autoLinefeed = a.autoLinefeed)
    (hinsert : b.insertMode = a.insertMode) : b.settings = a.settings := by
  rw [settings, settings, hfeed, hinsert, (frame_eq_iff.1 hframe).1]

theorem settings_scrollUp (s : Screen) : s.scrollUp.settings = s.settings := by
  have hmodes : s.scrollUp.autoLinefeed = s.autoLinefeed ∧ s.scrollUp.insertMode = s.insertMode :=
    ⟨scrollUpIn_same autoLinefeed (fun _ _ => rfl) (fun _ _ => rfl) (fun _ _ _ => rfl) s _ _ _,
      scrollUpIn_same insertMode (fun _ _ => rfl) (fun _ _ => rfl) (fun _ _ _ => rfl) s _ _ _⟩
  have hsize : s.scrollUp.primaryGrid.size = s.primaryGrid.size := by
    have hdelete := (frame_eq_iff.1 ((frame_deleteFrom (s.saveLines s.scrollTop 1) s.scrollTop 1
      s.scrollBottom).trans (frame_saveLines s s.scrollTop 1))).1
    unfold scrollUp scrollUpIn cursorIntoRegion
    split_ifs
    · rfl
    · exact hdelete
    · exact hdelete
    · exact hdelete
  rw [settings, settings, hmodes.1, hmodes.2, hsize]

theorem settings_putPrintable (s : Screen) (hinsert : s.insertMode = false) (ch : Nat) :
    (s.putPrintable ch).settings = s.settings := by
  have hwrap : s.wrapNow.settings = s.settings := by
    unfold wrapNow
    split
    · dsimp only
      split
      · exact settings_scrollUp { s with wrapPending := false }
      · rfl
    · rfl
  have hoff : s.wrapNow.insertMode = false := (congrArg (fun x => x.2.1) hwrap).trans hinsert
  have hroom : s.wrapNow.makeRoom = s.wrapNow := by simp [makeRoom, hoff]
  unfold putPrintable
  dsimp only
  rw [hroom]
  split
  · refine Eq.trans ?_ hwrap
    unfold writeChar
    split
    · rfl
    · generalize s.wrapNow = u
      have hattr : (u.setAttributes [] (u.store.value u.currentAttributes)
          { u.activeGrid.cell u.cursor.row u.cursor.column with
            char := u.charset.applyCharset ch }).2.settings = u.settings := by
        unfold setAttributes
        split <;> rfl
      have hadvance : ∀ (u : Screen) (col : Int), (u.advance col).settings = u.settings := by
        intro u col
        unfold advance
        split_ifs <;> rfl
      refine (hadvance _ _).trans (Eq.trans ?_ hattr)
      exact settings_keeps (frame_modifyCell _ _ _ _) rfl rfl
  · exact hwrap

theorem settings_putChar (s : Screen) (hfeed : s.autoLinefeed = false)
    (hinsert : s.insertMode = false) (ch : Nat) : (s.putChar ch).settings = s.settings := by
  by_cases hreturn : ch = 0x0D
  · rw [hreturn, putChar_return hfeed]
    rfl
  by_cases hline : ch = 0x0A
  · rw [hline, putChar_lineFeed]
    refine Eq.trans (b := s.settled.scrollAtBottom.settings) rfl ?_
    unfold scrollAtBottom
    split
    · exact settings_scrollUp s.settled
    · rfl
  by_cases hback : ch = 0x08
  · rw [hback, putChar_back]
    split <;> rfl
  · rw [putChar, if_neg hreturn, if_neg hline, if_neg hback]
    exact settings_putPrintable s hinsert ch

theorem Counts.putChar (ha : a.Counts) (hfeed : a.autoLinefeed = false)
    (hinsert : a.insertMode = false) (ch : Nat) : (a.putChar ch).Counts ∧
      (a.putChar ch).autoLinefeed = false ∧ (a.putChar ch).insertMode = false := by
  have hsettings := settings_putChar a hfeed hinsert ch
  simp only [settings, Prod.mk.injEq] at hsettings
  obtain ⟨hfeed', hinsert', hsize⟩ := hsettings
  simp only [Grid.size, Prod.mk.injEq] at hsize
  have hrows : (a.putChar ch).rowCount = a.rowCount := hsize.1
  have hcolumns : (a.putChar ch).columnCount = a.columnCount := hsize.2.1
  refine ⟨⟨ha.geometry.putChar ch, ?_, ?_⟩, hfeed'.trans hfeed, hinsert'.trans hinsert⟩
  · rw [hrows]
    exact ha.rows_le
  · rw [hcolumns]
    exact ha.columns_le

/-- The step lemma of the simulation. -/
theorem Twin.step (ha : a.Counts) (hfeed : a.autoLinefeed = false) (hinsert : a.insertMode = false)
    (h : a.Twin b) (hch : TextChar ch) (hagrees : a.agrees b ch = true) :
    (a.putChar ch).Twin (b.handleGround ch) := by
  right
  rcases hch with ⟨hch, -⟩ | rfl | rfl | rfl
  · exact agrees_printable ha hinsert h hch hagrees
  · exact agrees_return ha hfeed h hagrees
  · exact agrees_lineFeed ha h hagrees
  · exact agrees_back ha h hagrees

/-- Every character of the text meets the two screens where they agree on it. -/
def agreeRun : Screen → Screen → List Nat → Bool
  | _, _, [] => true
  | a, b, ch :: text => a.agrees b ch && agreeRun (a.putChar ch) (b.handleGround ch) text

theorem Twin.run (ha : a.Counts) (hfeed : a.autoLinefeed = false) (hinsert : a.insertMode = false)
    (h : a.Twin b) {text : List Nat} (htext : ∀ ch ∈ text, TextChar ch)
    (hagrees : agreeRun a b text = true) :
    (text.foldl putChar a).Twin (text.foldl handleGround b) := by
  induction text generalizing a b with
  | nil => exact h
  | cons ch text ih =>
    simp only [agreeRun, Bool.and_eq_true] at hagrees
    obtain ⟨hcounts, hfeed', hinsert'⟩ := ha.putChar hfeed hinsert ch
    exact ih hcounts hfeed' hinsert'
      (h.step ha hfeed hinsert (htext ch (by simp)) hagrees.1)
      (fun c hc => htext c (List.mem_cons_of_mem _ hc)) hagrees.2

/-- The same cells, the same cursor and the same lines scrolled out. -/
def SameText (a b : Screen) : Prop :=
  b.primaryGrid.cells = a.primaryGrid.cells ∧ b.altGrid.cells = a.altGrid.cells ∧
    (b.cursor.row, b.cursor.column) = (a.cursor.row, a.cursor.column) ∧
    b.scrollback = a.scrollback

theorem Twin.sameText (h : a.Twin b) : a.SameText b := by
  rcases h with rfl | rfl <;> exact ⟨rfl, rfl, rfl, rfl⟩

end Screen

namespace Terminal

/-- Where the two ways agree on each character, a text leaves the same screen by either. -/
theorem textPaths_agree {t : Terminal} (hdecoder : t.decoder = {})
    (hground : t.parser.state = .ground) (hcounts : t.screen.Counts)
    (hfeed : t.screen.autoLinefeed = false) (hinsert : t.screen.insertMode = false)
    {text : List Nat} (htext : ∀ ch ∈ text, Screen.TextChar ch)
    (hagrees : Screen.agreeRun t.screen t.screen text = true) :
    (text.foldl Screen.putChar t.screen).SameText
      (t.parseInput (text.flatMap encode)).screen := by
  rw [parseInput_text hdecoder hground fun ch hch => (htext ch hch).scalar]
  exact (Screen.Twin.run hcounts hfeed hinsert (.inl rfl) htext hagrees).sameText

theorem textPaths_hello :
    ([0x61, 0x0D].foldl Screen.putChar (make 1 1).screen).SameText
      ((make 1 1).parseInput ([0x61, 0x0D].flatMap encode)).screen :=
  textPaths_agree rfl rfl ⟨(Screen.Geometry.make (by decide) (by decide)).1, by decide,
    by decide⟩ (by decide) (by decide) (by decide) (by decide)

/-- A carriage return in the second column of two. -/
theorem return_moves_nothing :
    ¬ ∀ (t : Terminal) (text : List Nat), t.decoder = {} → t.parser.state = .ground →
      t.screen.Counts → t.screen.autoLinefeed = false → t.screen.insertMode = false →
      (∀ ch ∈ text, Screen.TextChar ch) →
      (text.foldl Screen.putChar t.screen).SameText
        (t.parseInput (text.flatMap encode)).screen := by
  intro h
  have hcursor := (h (make 1 2) [0x61, 0x0D] rfl rfl
    ⟨(Screen.Geometry.make (by decide) (by decide)).1, by decide, by decide⟩
    (by decide) (by decide) (by decide)).2.2.1
  revert hcursor
  decide

end Terminal

end JobAnsi
