import OddBuilder.Ansi.GeometryRuns

/-!
# Staying in range

Which parameters let a command compute outside the integers or reach outside the
grid, and that no others do, from any state with its geometry intact.
-/

namespace JobAnsi

open CountedLoop

namespace Grid

theorem Full.reachesLine {g : Grid} (hg : g.Full) {row : Int} (hrow : 0 ≤ row ∧ row < g.rows) :
    g.reachesLine row = true := by
  have hcolumns := hg.columns_pos
  have hlast : 0 ≤ g.columns - 1 ∧ g.columns - 1 < g.columns := by omega
  have hstart := place_bounds (c := 0) hrow ⟨le_rfl, hcolumns⟩
  have hend := place_bounds hrow hlast
  simp only [Grid.reachesLine, place, hg.length_eq, decide_eq_true_eq]
  constructor
  · exact hstart.1
  · omega

theorem insertLines_safe {g : Grid} (hg : g.Full) {startRow count limitRow : Int}
    (hrows : g.rows ≤ 2147483647) (hcount : count ≤ 2147483647)
    (hsum : 0 ≤ startRow → startRow < g.effectiveLimit limitRow → 0 < count →
      startRow + count ≤ 2147483647) (fill : Cell) :
    (g.insertLines startRow count fill limitRow).safe = g.safe := by
  by_cases hskip : startRow < 0 ∨ g.effectiveLimit limitRow ≤ startRow ∨ count ≤ 0
  · rw [insertLines, if_pos hskip]
  · have hlimit := g.effectiveLimit_le limitRow
    exact (insertLines_becomes hg fill (by omega) (by omega) (by omega)
      (inInt_iff.2 (by omega)) (inInt_iff.2 (by omega))).safe_eq

theorem deleteLines_safe {g : Grid} (hg : g.Full) {startRow count limitRow : Int}
    (hrows : g.rows ≤ 2147483647) (hcount : count ≤ 2147483647)
    (hsum : 0 ≤ startRow → startRow < g.effectiveLimit limitRow → 0 < count →
      startRow + count ≤ 2147483647) (fill : Cell) :
    (g.deleteLines startRow count fill limitRow).safe = g.safe := by
  by_cases hskip : startRow < 0 ∨ g.effectiveLimit limitRow ≤ startRow ∨ count ≤ 0
  · rw [deleteLines, if_pos hskip]
  · have hlimit := g.effectiveLimit_le limitRow
    exact (deleteLines_becomes hg fill (by omega) (by omega) (by omega)
      (inInt_iff.2 (by omega)) (inInt_iff.2 (by omega))).safe_eq

theorem resize_safe {g : Grid} (hg : g.Full) {rows cols : Int} (hrows : 0 < rows)
    (hcols : 0 < cols) (harea : inInt (rows * cols) = true) :
    (g.resize rows cols).safe = g.safe := by
  have hpos := Int.mul_pos hrows hcols
  rw [resize, if_neg (by omega)]
  simp only [harea, Bool.and_true]
  split
  · rfl
  · have hkept : ∀ new : Grid, (new.size = (rows, cols, (rows * cols).toNat) ∧
        new.safe = g.safe) → ∀ r c, 0 ≤ r → r < min g.rows rows → 0 ≤ c → c < min g.columns cols →
        ((new.checks (g.reaches r c)).store r c (g.cell r c)).size =
            (rows, cols, (rows * cols).toNat) ∧
          ((new.checks (g.reaches r c)).store r c (g.cell r c)).safe = g.safe := by
      rintro new ⟨hsize, hsafe⟩ r c hr0 hr1 hc0 hc1
      refine ⟨by rw [size_store, size_checks, hsize], ?_⟩
      simp only [size, Prod.mk.injEq] at hsize
      have hold := hg.reaches (r := r) (c := c) ⟨by omega, by omega⟩
      have hfull : new.Full := ⟨by omega, by omega, by rw [hsize.1, hsize.2.1]; omega⟩
      have hreach := hfull.reaches (r := r) (c := c) ⟨by omega, by omega⟩
      rw [hold]
      simp [store, hreach, hsafe]
    have hrow : ∀ (r : Int) (new : Grid), 0 ≤ r → r < min g.rows rows →
        (new.size = (rows, cols, (rows * cols).toNat) ∧ new.safe = g.safe) →
        ∀ t, t = upTo 0 (min g.columns cols) (fun c new =>
            (new.checks (g.reaches r c)).store r c (g.cell r c)) new →
          t.size = (rows, cols, (rows * cols).toNat) ∧ t.safe = g.safe := by
      rintro r new hr0 hr1 hnew _ rfl
      exact upTo_keeps (P := fun new : Grid => new.size = (rows, cols, (rows * cols).toNat) ∧
        new.safe = g.safe) hnew fun c new hge hlt hnew => hkept new hnew r c hr0 hr1 hge hlt
    refine (upTo_keeps (P := fun new : Grid => new.size = (rows, cols, (rows * cols).toNat) ∧
      new.safe = g.safe) ?_ fun r new hge hlt hnew => hrow r new hge hlt hnew _ rfl).2
    simp [size]

end Grid

namespace Screen

variable {s t : Screen}
variable {rowDelta colDelta limit : Int}

/-- Grids of a size that an `int` counts, numbers that leave room for one more, and nothing out of
range so far. The cursor need not stand on the screen, nor the top margin above the bottom one. -/
structure InBounds (s : Screen) : Prop where
  primary_full : s.primaryGrid.Full
  alt_size : s.altGrid.size = s.primaryGrid.size
  sound : s.Sound
  sized : s.rowCount * s.columnCount ≤ 2147483647
  maxRows_eq : s.cursor.maxRows = s.rowCount
  maxCols_eq : s.cursor.maxCols = s.columnCount
  row_bounds : 0 ≤ s.cursor.row ∧ s.cursor.row < 2147483647
  column_bounds : 0 ≤ s.cursor.column ∧ s.cursor.column < 2147483647
  saved_bounds : s.cursor.savedRow < 2147483647 ∧ s.cursor.savedCol < 2147483647
  top_bounds : 0 ≤ s.scrollTop ∧ s.scrollTop < 2147483647
  bottom_bounds : 0 ≤ s.scrollBottom ∧ s.scrollBottom ≤ s.rowCount

theorem InBounds.formed (h : s.InBounds) : s.Formed := ⟨h.primary_full, h.alt_size⟩

theorem InBounds.rows_le (h : s.InBounds) : s.rowCount ≤ 2147483647 := by
  have hle := Int.mul_le_mul_of_nonneg_left (show 1 ≤ s.columnCount from h.formed.columns_pos)
    h.formed.rows_pos.le
  have := h.sized
  omega

theorem InBounds.columns_le (h : s.InBounds) : s.columnCount ≤ 2147483647 := by
  have hle := Int.mul_le_mul_of_nonneg_right (show 1 ≤ s.rowCount from h.formed.rows_pos)
    h.formed.columns_pos.le
  have := h.sized
  omega

theorem InBounds.of_keeps (h : s.InBounds) (hkeeps : s.Keeps t) : t.InBounds := by
  obtain ⟨hsize, -, hcursor, htop, hbottom⟩ := frame_eq_iff.1 hkeeps.frame_eq
  obtain ⟨hrows, hcolumns, -⟩ := Grid.size_eq_iff.1 hsize
  have hrowCount : t.rowCount = s.rowCount := hrows
  have hcolumnCount : t.columnCount = s.columnCount := hcolumns
  constructor
  · exact (hkeeps.formed h.formed).primary_full
  · exact (hkeeps.formed h.formed).alt_size
  · exact hkeeps.sound h.sound
  · rw [hrowCount, hcolumnCount]
    exact h.sized
  · rw [hcursor, hrowCount, h.maxRows_eq]
  · rw [hcursor, hcolumnCount, h.maxCols_eq]
  · rw [hcursor]
    exact h.row_bounds
  · rw [hcursor]
    exact h.column_bounds
  · rw [hcursor]
    exact h.saved_bounds
  · rw [htop]
    exact h.top_bounds
  · rw [hbottom, hrowCount]
    exact h.bottom_bounds

theorem InBounds.setPosition (h : s.InBounds) (row col : Int) :
    { s with cursor := s.cursor.setPosition row col }.InBounds := by
  have hrows := h.formed.rows_pos
  have hcolumns := h.formed.columns_pos
  have hrow := clamp_bounds (n := row) (show 0 ≤ s.cursor.maxRows - 1 by rw [h.maxRows_eq]; omega)
  have hcol := clamp_bounds (n := col) (show 0 ≤ s.cursor.maxCols - 1 by rw [h.maxCols_eq]; omega)
  have hrowsLe := h.rows_le
  have hcolumnsLe := h.columns_le
  have hmaxRows := h.maxRows_eq
  have hmaxCols := h.maxCols_eq
  exact ⟨h.primary_full, h.alt_size, h.sound, h.sized, h.maxRows_eq, h.maxCols_eq,
    ⟨hrow.1, show clamp row 0 (s.cursor.maxRows - 1) < 2147483647 by omega⟩,
    ⟨hcol.1, show clamp col 0 (s.cursor.maxCols - 1) < 2147483647 by omega⟩,
    h.saved_bounds, h.top_bounds, h.bottom_bounds⟩

theorem InBounds.setCursor (h : s.InBounds) (row col : Int) : (s.setCursor row col).InBounds :=
  (h.setPosition (clamp row 0 (s.rowCount - 1)) (clamp col 0 (s.columnCount - 1))).of_keeps
    ⟨rfl, id⟩

theorem InBounds.computes (h : s.InBounds) {ns : List Int} (hns : ns.all inInt = true) :
    (s.computes ns).InBounds :=
  h.of_keeps (keeps_computes (List.all_eq_true.1 hns))

theorem InBounds.moveCursorRelative (h : s.InBounds)
    (hfits : [s.cursor.row + rowDelta, s.cursor.column + colDelta].all inInt = true)
    (top bottom : Int) : (s.moveCursorRelative rowDelta colDelta top bottom).InBounds :=
  (h.computes hfits).setCursor _ _

/-- The moves that no parameter counts. -/
theorem InBounds.moveCursor (h : s.InBounds) (hrow : -1 ≤ rowDelta ∧ rowDelta ≤ 1)
    (hcol : -1 ≤ colDelta ∧ colDelta ≤ 1) : (s.moveCursor rowDelta colDelta).InBounds := by
  have hrows := h.row_bounds
  have hcolumns := h.column_bounds
  refine h.moveCursorRelative ?_ _ _
  simp only [List.all_cons, List.all_nil, Bool.and_true, Bool.and_eq_true, inInt_iff]
  omega

/-- A move by these distances stays within the integers. -/
def fitsMove (s : Screen) (rowDelta colDelta : Int) : Bool :=
  [rowDelta, colDelta].all inInt &&
    [s.cursor.row + rowDelta, s.cursor.column + colDelta].all inInt

theorem InBounds.moveBy (h : s.InBounds) (hfits : s.fitsMove rowDelta colDelta = true) :
    (s.moveBy rowDelta colDelta).InBounds := by
  simp only [fitsMove, Bool.and_eq_true] at hfits
  exact InBounds.moveCursorRelative (h.computes hfits.1) hfits.2 _ _

theorem InBounds.saveCursor (h : s.InBounds) : s.saveCursor.InBounds :=
  ⟨h.primary_full, h.alt_size, h.sound, h.sized, h.maxRows_eq, h.maxCols_eq, h.row_bounds, h.column_bounds,
    ⟨h.row_bounds.2, h.column_bounds.2⟩, h.top_bounds, h.bottom_bounds⟩

theorem InBounds.restoreCursor (h : s.InBounds) : s.restoreCursor.InBounds := by
  have hsaved := h.saved_bounds
  unfold Screen.restoreCursor Cursor.restore
  split
  · rename_i hnonneg
    exact ⟨h.primary_full, h.alt_size, h.sound, h.sized, h.maxRows_eq, h.maxCols_eq, ⟨hnonneg.1, hsaved.1⟩,
      ⟨hnonneg.2, hsaved.2⟩, hsaved, h.top_bounds, h.bottom_bounds⟩
  · exact h

theorem InBounds.setScrollRegion (h : s.InBounds) (top bottom : Int) :
    (s.setScrollRegion top bottom).InBounds := by
  have hrows := h.formed.rows_pos
  have hrowsLe := h.rows_le
  have htop := clamp_bounds (n := top) (show 0 ≤ s.rowCount - 1 by omega)
  have hbottom := clamp_bounds (n := bottom)
    (show clamp top 0 (s.rowCount - 1) + 1 ≤ s.rowCount by omega)
  simp only [Screen.setScrollRegion, h.formed.active_rows]
  exact ⟨h.primary_full, h.alt_size, h.sound, h.sized, h.maxRows_eq, h.maxCols_eq, h.row_bounds, h.column_bounds,
    h.saved_bounds, ⟨htop.1, by dsimp only; omega⟩, ⟨by dsimp only; omega, hbottom.2⟩⟩

theorem effectiveLimit_eq (h : s.Formed) (hlimit : 0 ≤ limit) (hle : limit ≤ s.rowCount) :
    s.activeGrid.effectiveLimit limit = limit := by
  rw [Grid.effectiveLimit, if_neg (by omega), h.active_rows, min_eq_left hle]

theorem InBounds.insertFrom (h : s.InBounds) {startRow count : Int} (hlimit : 0 ≤ limit)
    (hle : limit ≤ s.rowCount) (hcount : count ≤ 2147483647)
    (hsum : startRow < limit → 0 < count → startRow + count ≤ 2147483647) :
    (s.insertFrom startRow count limit).InBounds := by
  refine h.of_keeps (keeps_setGrid (Grid.size_insertLines _ _ _ _ _) fun hs => ?_)
  rw [Grid.insertLines_safe h.formed.active_full (by
    rw [h.formed.active_rows]
    exact h.rows_le) hcount]
  · exact hs.active
  · rw [effectiveLimit_eq h.formed hlimit hle]
    exact fun _ => hsum

theorem InBounds.deleteFrom (h : s.InBounds) {startRow count : Int} (hlimit : 0 ≤ limit)
    (hle : limit ≤ s.rowCount) (hcount : count ≤ 2147483647)
    (hsum : startRow < limit → 0 < count → startRow + count ≤ 2147483647) :
    (s.deleteFrom startRow count limit).InBounds := by
  refine h.of_keeps (keeps_setGrid (Grid.size_deleteLines _ _ _ _ _) fun hs => ?_)
  rw [Grid.deleteLines_safe h.formed.active_full (by
    rw [h.formed.active_rows]
    exact h.rows_le) hcount]
  · exact hs.active
  · rw [effectiveLimit_eq h.formed hlimit hle]
    exact fun _ => hsum

theorem keeps_saveLine (h : s.Formed) {row : Int} (hrow : 0 ≤ row ∧ row < s.rowCount) :
    s.Keeps (s.saveLine row) := by
  refine ⟨rfl, fun hs => ⟨?_, hs.2⟩⟩
  rw [saveLine, h.active_full.reachesLine (h.active_rows ▸ hrow), Bool.and_true]
  exact hs.1

/-- Scrolling copies as many rows from the top as it scrolls. -/
theorem keeps_saveLines (h : s.Formed) {top lines : Int}
    (hlines : top = 0 → s.inAlternateGrid = false → lines ≤ s.rowCount) :
    s.Keeps (s.saveLines top lines) := by
  unfold saveLines
  split
  · rename_i hcond
    have hle := hlines hcond.1 hcond.2
    refine Keeps.upTo h fun i t hge hlt hframe ht => keeps_saveLine ht ?_
    have hrows : t.rowCount = s.rowCount :=
      (Grid.size_eq_iff.1 (frame_eq_iff.1 hframe).1).1
    omega
  · exact Keeps.refl s

theorem rowCount_saveLines (s : Screen) (top lines : Int) :
    (s.saveLines top lines).rowCount = s.rowCount :=
  (Grid.size_eq_iff.1 (frame_eq_iff.1 (frame_saveLines s top lines)).1).1

theorem InBounds.cursorIntoRegion (h : s.InBounds) (top bottom : Int) :
    (s.cursorIntoRegion top bottom).InBounds := by
  unfold Screen.cursorIntoRegion
  split_ifs
  · exact h.setPosition _ _
  · exact h.setPosition _ _
  · exact h

/-- The rows to keep in the scrollback are there, and the row behind them is a number. -/
def fitsScrollUp (s : Screen) (n : Int) : Bool :=
  n ≤ 0 ∨ s.scrollBottom ≤ s.scrollTop ∨
    (s.scrollTop = 0 → s.inAlternateGrid = false → n ≤ s.rowCount) ∧
      s.scrollTop + n ≤ 2147483647

def fitsScrollDown (s : Screen) (n : Int) : Bool :=
  n ≤ 0 ∨ s.scrollBottom ≤ s.scrollTop ∨ s.scrollTop + n ≤ 2147483647

theorem InBounds.scrollUpIn (h : s.InBounds) {n : Int} (hint : n ≤ 2147483647)
    (hfits : s.fitsScrollUp n = true) : (s.scrollUpIn s.scrollTop s.scrollBottom n).InBounds := by
  simp only [fitsScrollUp, decide_eq_true_eq] at hfits
  unfold Screen.scrollUpIn
  split
  · exact h
  · obtain ⟨hrows, hsum⟩ : _ ∧ _ := by
      rcases hfits with hn | hregion | hfits
      · omega
      · omega
      · exact hfits
    refine InBounds.cursorIntoRegion ?_ _ _
    refine (h.of_keeps (keeps_saveLines h.formed hrows)).deleteFrom h.bottom_bounds.1 ?_ hint
      fun _ _ => hsum
    rw [rowCount_saveLines]
    exact h.bottom_bounds.2

theorem InBounds.scrollUp (h : s.InBounds) : s.scrollUp.InBounds := by
  have hrows := h.formed.rows_pos
  have htop := h.top_bounds
  refine h.scrollUpIn (by omega) ?_
  simp only [fitsScrollUp, decide_eq_true_eq]
  omega

theorem InBounds.scrollDown (h : s.InBounds) {n : Int} (hint : n ≤ 2147483647)
    (hfits : s.fitsScrollDown n = true) :
    (s.scrollDown s.scrollTop s.scrollBottom n).InBounds := by
  simp only [fitsScrollDown, decide_eq_true_eq] at hfits
  unfold Screen.scrollDown
  split
  · exact h
  · exact h.insertFrom h.bottom_bounds.1 h.bottom_bounds.2 hint fun _ _ => by omega

end Screen

end JobAnsi
