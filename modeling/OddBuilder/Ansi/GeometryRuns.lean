import OddBuilder.Ansi.Geometry
import OddBuilder.Ansi.Parser

/-!
# The geometry over whole runs

Every command keeps the geometry, but for two: a saved position comes back
unclamped, and a resize compares the margins with the new size. Where neither
does harm, the geometry holds in every state of a run.
-/

namespace JobAnsi

open CountedLoop

namespace Screen

variable {s t : Screen}
variable {rows cols : Int}

theorem Geometry.setPosition (h : s.Geometry) (row col : Int) :
    { s with cursor := s.cursor.setPosition row col }.Geometry := by
  have hrows := h.formed.rows_pos
  have hcolumns := h.formed.columns_pos
  have hrow := clamp_bounds (n := row) (show 0 ≤ s.cursor.maxRows - 1 by rw [h.maxRows_eq]; omega)
  have hcol := clamp_bounds (n := col) (show 0 ≤ s.cursor.maxCols - 1 by rw [h.maxCols_eq]; omega)
  rw [h.maxRows_eq] at hrow
  rw [h.maxCols_eq] at hcol
  refine ⟨h.primary_full, h.alt_size, h.maxRows_eq, h.maxCols_eq, ?_, ?_, h.top_nonneg,
    h.top_lt_bottom, h.bottom_le⟩
  · simp only [Cursor.setPosition, h.maxRows_eq]
    exact ⟨hrow.1, show _ < s.rowCount by omega⟩
  · simp only [Cursor.setPosition, h.maxCols_eq]
    exact ⟨hcol.1, show _ < s.columnCount by omega⟩

theorem Geometry.setCursor (h : s.Geometry) (row col : Int) : (s.setCursor row col).Geometry :=
  Geometry.of_frame (h.setPosition (clamp row 0 (s.rowCount - 1))
    (clamp col 0 (s.columnCount - 1))) rfl

theorem Geometry.computes (h : s.Geometry) (ns : List Int) : (s.computes ns).Geometry :=
  h.of_frame rfl

theorem Geometry.moveCursorRelative (h : s.Geometry) (rowDelta colDelta top bottom : Int) :
    (s.moveCursorRelative rowDelta colDelta top bottom).Geometry :=
  (h.computes _).setCursor _ _

theorem Geometry.moveCursor (h : s.Geometry) (rowDelta colDelta : Int) :
    (s.moveCursor rowDelta colDelta).Geometry :=
  h.moveCursorRelative _ _ _ _

theorem Geometry.moveBy (h : s.Geometry) (rowDelta colDelta : Int) :
    (s.moveBy rowDelta colDelta).Geometry :=
  (h.computes _).moveCursorRelative _ _ _ _

theorem Geometry.setScrollRegion (h : s.Geometry) (top bottom : Int) :
    (s.setScrollRegion top bottom).Geometry := by
  have hrows := h.formed.rows_pos
  have htop := clamp_bounds (n := top) (show 0 ≤ s.rowCount - 1 by omega)
  have hbottom := clamp_bounds (n := bottom)
    (show clamp top 0 (s.rowCount - 1) + 1 ≤ s.rowCount by omega)
  simp only [Screen.setScrollRegion, h.formed.active_rows]
  exact ⟨h.primary_full, h.alt_size, h.maxRows_eq, h.maxCols_eq, h.row_bounds, h.column_bounds,
    htop.1, by dsimp only; omega, hbottom.2⟩

theorem Geometry.setOriginMode (h : s.Geometry) (enabled : Bool) :
    (s.setOriginMode enabled).Geometry := by
  have hs : { s with originMode := enabled }.Geometry := h.of_frame rfl
  unfold Screen.setOriginMode
  split
  · exact hs.moveCursor _ _
  · exact hs

theorem frame_saveLines (s : Screen) (top lines : Int) :
    (s.saveLines top lines).frame = s.frame := by
  unfold saveLines
  split
  · exact upTo_same (f := frame) fun _ _ _ _ => rfl
  · rfl

/-- What neither saving a line nor a new grid nor a moved cursor changes, scrolling leaves alone. -/
theorem scrollUpIn_same {τ : Type} (f : Screen → τ) (hsave : ∀ row s, f (saveLine row s) = f s)
    (hgrid : ∀ s g, f (s.setGrid g) = f s)
    (hcursor : ∀ (s : Screen) row col, f { s with cursor := s.cursor.setPosition row col } = f s)
    (s : Screen) (top bottom lines : Int) : f (s.scrollUpIn top bottom lines) = f s := by
  have hlines : f (s.saveLines top lines) = f s := by
    unfold saveLines
    split
    · exact upTo_same fun _ _ _ _ => hsave _ _
    · rfl
  unfold scrollUpIn
  split
  · rfl
  · unfold cursorIntoRegion
    split_ifs
    · exact (hcursor _ _ _).trans ((hgrid _ _).trans hlines)
    · exact (hcursor _ _ _).trans ((hgrid _ _).trans hlines)
    · exact (hgrid _ _).trans hlines

theorem frame_deleteFrom (s : Screen) (startRow count limit : Int) :
    (s.deleteFrom startRow count limit).frame = s.frame :=
  frame_setGrid (Grid.size_deleteLines _ _ _ _ _)

theorem frame_insertFrom (s : Screen) (startRow count limit : Int) :
    (s.insertFrom startRow count limit).frame = s.frame :=
  frame_setGrid (Grid.size_insertLines _ _ _ _ _)

theorem Geometry.cursorIntoRegion (h : s.Geometry) (top bottom : Int) :
    (s.cursorIntoRegion top bottom).Geometry := by
  unfold Screen.cursorIntoRegion
  split_ifs
  · exact h.setPosition _ _
  · exact h.setPosition _ _
  · exact h

theorem Geometry.scrollUpIn (h : s.Geometry) (top bottom lines : Int) :
    (s.scrollUpIn top bottom lines).Geometry := by
  unfold Screen.scrollUpIn
  split
  · exact h
  · exact (h.of_frame ((frame_deleteFrom _ _ _ _).trans
      (frame_saveLines _ _ _))).cursorIntoRegion _ _

theorem Geometry.scrollDown (h : s.Geometry) (top bottom lines : Int) :
    (s.scrollDown top bottom lines).Geometry := by
  unfold Screen.scrollDown
  split
  · exact h
  · exact h.of_frame (frame_insertFrom _ _ _ _)

theorem Geometry.insertLines (h : s.Geometry) (startRow count : Int) :
    (s.insertLines startRow count).Geometry :=
  h.of_frame (frame_insertFrom _ _ _ _)

theorem Geometry.deleteLines (h : s.Geometry) (startRow count : Int) :
    (s.deleteLines startRow count).Geometry := by
  unfold Screen.deleteLines
  split
  · exact h
  · exact h.of_frame (frame_deleteFrom _ _ _ _)

theorem Geometry.clear (h : s.Geometry) : s.clear.Geometry := by
  refine Geometry.setCursor (h.of_frame ?_) 0 0
  exact upTo_same (f := frame) fun _ _ _ _ => upTo_same (f := frame) fun _ _ _ _ =>
    frame_modifyCell _ _ _ _

theorem Geometry.clearScrollback (h : s.Geometry) : s.clearScrollback.Geometry := h.of_frame rfl

theorem Geometry.reset (h : s.Geometry) : s.reset.Geometry := by
  have hs := h.clear.clearScrollback
  unfold Screen.reset
  dsimp only
  split
  · exact hs.of_frame rfl
  · exact ⟨hs.primary_full, hs.alt_size, hs.maxRows_eq, hs.maxCols_eq, hs.row_bounds,
      hs.column_bounds, le_rfl, hs.formed.rows_pos, le_rfl⟩

theorem Geometry.deleteChars (h : s.Geometry) (count : Int) : (s.deleteChars count).Geometry := by
  have hshift : (upTo s.cursor.column (s.columnCount - count) (fun i t =>
      if t.hasCell s.cursor.row i && t.hasCell s.cursor.row (i + count) &&
          !(t.activeGrid.cell s.cursor.row i).protectWrite then
        t.modifyCell (fun _ => t.activeGrid.cell s.cursor.row (i + count)) s.cursor.row i
      else t) (s.computes [s.columnCount - count])).Geometry := by
    refine (h.computes _).of_frame (upTo_same (f := frame) fun _ _ _ _ => ?_)
    split
    · exact frame_modifyCell _ _ _ _
    · rfl
  exact (keeps_eraseRow hshift.formed resetCell _ _ _).geometry hshift

theorem Geometry.repeatLastChar (h : s.Geometry) (count : Int) :
    (s.repeatLastChar count).Geometry := by
  unfold Screen.repeatLastChar
  split
  · exact h
  · refine Geometry.setPosition (Keeps.geometry (s := s) ?_ h) _ _
    exact Keeps.upTo h.formed fun _ _ _ _ _ ht => keeps_repeatCell ht _ _

theorem Geometry.ich (h : s.Geometry) (params : List Int) : (s.ich params).Geometry := by
  unfold Screen.ich
  dsimp only
  split
  · exact h
  · refine (h.computes _).of_frame ((upTo_same (f := frame) fun _ _ _ _ =>
      frame_derefAt _ _ _ _).trans (downTo_same (f := frame) fun _ _ _ _ =>
        frame_copyDeref _ _ _ _))

theorem Geometry.shiftRight (h : s.Geometry) (row col : Int) :
    (s.shiftRight row col).Geometry := by
  refine h.of_frame ((frame_modifyCell _ _ _ _).trans (downTo_same (f := frame) fun _ _ _ _ => ?_))
  exact frame_setGrid (Grid.size_copyCell _ _ _ _ _)

theorem Geometry.advance (h : s.Geometry) (col : Int) : (s.advance col).Geometry := by
  unfold Screen.advance
  split_ifs
  · exact h.of_frame rfl
  · exact h
  · exact h.setPosition _ _

theorem Geometry.writeCell (h : s.Geometry) (row col : Int) (ch : Nat) :
    (s.writeCell row col ch).Geometry :=
  Geometry.advance (h.of_frame ((frame_modifyCell _ _ _ _).trans
    (keeps_setAttributes _ _ _ _).frame_eq)) col

theorem Geometry.wrapNow (h : s.Geometry) : s.wrapNow.Geometry := by
  have hs : { s with wrapPending := false }.Geometry := h.of_frame rfl
  unfold Screen.wrapNow
  split
  · dsimp only
    split
    · exact (hs.scrollUpIn _ _ _).setPosition _ _
    · exact hs.setPosition _ _
  · exact h

theorem Geometry.makeRoom (h : s.Geometry) : s.makeRoom.Geometry := by
  unfold Screen.makeRoom
  split
  · exact h.shiftRight _ _
  · exact h

theorem Geometry.writeChar (h : s.Geometry) (ch : Nat) : (s.writeChar ch).Geometry := by
  unfold Screen.writeChar
  split
  · exact h
  · exact h.writeCell _ _ _

theorem Geometry.putPrintable (h : s.Geometry) (ch : Nat) : (s.putPrintable ch).Geometry := by
  unfold Screen.putPrintable
  dsimp only
  split
  · exact h.wrapNow.makeRoom.writeChar _
  · exact h.wrapNow

theorem Geometry.scrollAtBottom (h : s.Geometry) : s.scrollAtBottom.Geometry := by
  unfold Screen.scrollAtBottom
  split
  · exact h.scrollUpIn _ _ _
  · exact h

theorem Geometry.putLineFeed (h : s.Geometry) (column : Screen → Int) :
    (s.putLineFeed column).Geometry :=
  h.scrollAtBottom.moveCursor _ _

theorem Geometry.putChar (h : s.Geometry) (ch : Nat) : (s.putChar ch).Geometry := by
  have hs : { s with wrapPending := false }.Geometry := h.of_frame rfl
  unfold Screen.putChar
  split
  · dsimp only
    split
    · exact (hs.moveCursor _ _).putLineFeed _
    · exact hs.moveCursor _ _
  · split
    · exact hs.putLineFeed _
    · split
      · dsimp only
        split
        · exact hs.moveCursor _ _
        · exact hs
      · exact h.putPrintable ch

theorem Geometry.handleGround (h : s.Geometry) (ch : Nat) : (s.handleGround ch).Geometry := by
  refine Geometry.setCursor ?_ _ _
  split_ifs
  · exact h.setCursor _ _
  · unfold lineFeed
    split
    · exact h.scrollUpIn _ _ _
    · exact h.moveCursor _ _
  · exact h.moveCursor _ _
  · exact h.setCursor _ _
  · exact h.putChar _
  · exact h

/-- The saved position, if there is one, lies on the screen. -/
def SavedInside (s : Screen) : Prop :=
  s.cursor.savedRow < s.rowCount ∧ s.cursor.savedCol < s.columnCount

/-- The margins are those of the whole screen. -/
def CoversAll (s : Screen) : Prop := s.scrollTop = 0 ∧ s.scrollBottom = s.rowCount

instance (s : Screen) : Decidable s.CoversAll := inferInstanceAs (Decidable (_ ∧ _))

/-- The region keeps a row, and a region of the whole screen is not left behind. -/
def ResizeFits (s : Screen) (rows : Int) : Prop :=
  s.scrollTop < rows ∧ (s.CoversAll → rows ≤ s.rowCount)

theorem Geometry.saveCursor (h : s.Geometry) : s.saveCursor.Geometry :=
  ⟨h.primary_full, h.alt_size, h.maxRows_eq, h.maxCols_eq, h.row_bounds, h.column_bounds,
    h.top_nonneg, h.top_lt_bottom, h.bottom_le⟩

theorem Geometry.restoreCursor (h : s.Geometry) (hsaved : s.SavedInside) :
    s.restoreCursor.Geometry := by
  unfold Screen.restoreCursor Cursor.restore
  split
  · rename_i hnonneg
    exact ⟨h.primary_full, h.alt_size, h.maxRows_eq, h.maxCols_eq, ⟨hnonneg.1, hsaved.1⟩,
      ⟨hnonneg.2, hsaved.2⟩, h.top_nonneg, h.top_lt_bottom, h.bottom_le⟩
  · exact h

theorem Geometry.enterAlternateGrid (h : s.Geometry) : s.enterAlternateGrid.Geometry := by
  refine Geometry.setScrollRegion (h.of_frame ?_) _ _
  simp [frame, Grid.size]

theorem resize_sizes (hrows : 0 < rows) (hcols : 0 < cols) :
    (s.resize rows cols).primaryGrid = s.primaryGrid.resize rows cols ∧
      (s.resize rows cols).altGrid = s.altGrid.resize rows cols ∧
      (s.resize rows cols).rowCount = rows ∧ (s.resize rows cols).columnCount = cols := by
  have hsize := s.primaryGrid.size_resize hrows hcols
  simp only [Grid.size, Prod.mk.injEq] at hsize
  unfold resize
  dsimp only
  split
  · exact ⟨rfl, rfl, hsize.1, hsize.2.1⟩
  · exact ⟨rfl, rfl, hsize.1, hsize.2.1⟩

theorem resize_cursor (s : Screen) (rows cols : Int) :
    (s.resize rows cols).cursor = s.cursor.updateDimensions rows cols := by
  unfold resize
  dsimp only
  split <;> rfl

/-- The bottom margin comes down to the new size, but it does not go up with it. -/
theorem resize_margins (hrows : 0 < rows) (hcols : 0 < cols) :
    (s.resize rows cols).scrollTop = s.scrollTop ∧
      (s.resize rows cols).scrollBottom = min s.scrollBottom rows := by
  have hsize := s.primaryGrid.size_resize hrows hcols
  simp only [Grid.size, Prod.mk.injEq] at hsize
  simp only [resize, computes, hsize.1]
  split
  · exact ⟨rfl, by dsimp only; omega⟩
  · exact ⟨rfl, by dsimp only; omega⟩

theorem Geometry.resize (h : s.Geometry) (hrows : 0 < rows) (hcols : 0 < cols)
    (htop : s.scrollTop < rows) : (s.resize rows cols).Geometry := by
  obtain ⟨hprimary, halt, hr, hc⟩ := resize_sizes (s := s) hrows hcols
  obtain ⟨hscrollTop⟩ := resize_margins (s := s) hrows hcols
  have hrow := clamp_bounds (n := s.cursor.row) (show 0 ≤ rows - 1 by omega)
  have hcol := clamp_bounds (n := s.cursor.column) (show 0 ≤ cols - 1 by omega)
  have hbounds := h.top_lt_bottom
  constructor
  · rw [hprimary]
    exact s.primaryGrid.resize_full hrows hcols
  · rw [hprimary, halt, Grid.size_resize _ hrows hcols, Grid.size_resize _ hrows hcols]
  · rw [resize_cursor, hr]
    rfl
  · rw [resize_cursor, hc]
    rfl
  · rw [resize_cursor, hr]
    exact ⟨hrow.1, show clamp s.cursor.row 0 (rows - 1) < rows by omega⟩
  · rw [resize_cursor, hc]
    exact ⟨hcol.1, show clamp s.cursor.column 0 (cols - 1) < cols by omega⟩
  · rw [hscrollTop]
    exact h.top_nonneg
  · omega
  · omega

/-- Growing is what leaves a region of the whole screen behind. -/
theorem resize_covers_iff (hcovers : s.CoversAll) (hrows : 0 < rows) (hcols : 0 < cols) :
    (s.resize rows cols).CoversAll ↔ rows ≤ s.rowCount := by
  obtain ⟨hscrollTop, hscrollBottom⟩ := resize_margins (s := s) hrows hcols
  obtain ⟨hr⟩ := resize_sizes (s := s) hrows hcols
  rw [CoversAll, hscrollTop, hscrollBottom, hcovers.1, hcovers.2]
  omega

theorem requestedSize_pos {params : List Int} {size : Int × Int}
    (h : requestedSize params = some size) : 0 < size.1 ∧ 0 < size.2 := by
  unfold requestedSize at h
  split at h <;> grind

theorem Geometry.dispatchPrivate (h : s.Geometry) (set : Bool) (code : Int)
    (hsaved : set = false → code = 1048 ∨ code = 1049 → s.SavedInside) :
    (s.dispatchPrivate set code).Geometry := by
  unfold Screen.dispatchPrivate
  split
  · exact h.setOriginMode set
  · exact h.of_frame rfl
  · split
    · exact h.enterAlternateGrid
    · exact h.of_frame rfl
  · split
    · exact h.saveCursor.enterAlternateGrid
    · have hs : s.exitAlternateGrid.Geometry := h.of_frame rfl
      exact hs.restoreCursor (hsaved (by simp_all) (.inr rfl))
  · split
    · exact h.saveCursor
    · exact h.restoreCursor (hsaved (by simp_all) (.inl rfl))
  · exact h

/-- Modes that are reset leave the saved position and the size. -/
theorem dispatchPrivate_saved (s : Screen) (code : Int) (hsaved : s.SavedInside) :
    (s.dispatchPrivate false code).SavedInside := by
  unfold dispatchPrivate
  split
  · exact hsaved
  · exact hsaved
  · exact hsaved
  · simp only [Bool.false_eq_true, if_false, restoreCursor, Cursor.restore]
    split <;> exact hsaved
  · simp only [Bool.false_eq_true, if_false, restoreCursor, Cursor.restore]
    split <;> exact hsaved
  · exact hsaved

theorem Geometry.setMode (h : s.Geometry) (privateMode set : Bool) (params : List Int)
    (hsaved : privateMode = true → set = false → (1048 ∈ params ∨ 1049 ∈ params) →
      s.SavedInside) : (s.setMode privateMode set params).Geometry := by
  induction params generalizing s with
  | nil => exact h
  | cons code params ih =>
    cases privateMode with
    | false =>
      refine ih ?_ (fun hfalse => absurd hfalse (by simp))
      simp only [Bool.false_eq_true, if_false, dispatchPublic]
      split <;> exact h.of_frame rfl
    | true =>
      refine ih (h.dispatchPrivate set code fun hset hcode => hsaved rfl hset ?_)
        fun _ hset hmem => ?_
      · rcases hcode with rfl | rfl <;> simp
      · subst hset
        exact dispatchPrivate_saved s code
          (hsaved rfl rfl (hmem.imp (List.mem_cons_of_mem _) (List.mem_cons_of_mem _)))

/-- The size to which a command resizes the screen. -/
def newSize : Command → Option (Int × Int)
  | .csi _ .WINDOW_MANIP params => requestedSize params
  | _ => none

/-- A command that restores a position, or resets a mode that does. -/
def restores : Command → Bool
  | .csi _ .RCP _ => true
  | .csi privateMode .RM params => privateMode ∧ (1048 ∈ params ∨ 1049 ∈ params)
  | .esc code _ => Char.ofNat code.toNat = '8'
  | _ => false

/-- A position to restore lies on the screen, and the region keeps a row. -/
def Contained (s : Screen) (command : Command) : Prop :=
  (restores command = true → s.SavedInside) ∧ ∀ size ∈ newSize command, s.scrollTop < size.1

/-- A position to restore lies on the screen, and a new size fits the margins. -/
def Tame (s : Screen) (command : Command) : Prop :=
  (restores command = true → s.SavedInside) ∧ ∀ size ∈ newSize command, s.ResizeFits size.1

theorem Tame.contained {command : Command} (h : s.Tame command) : s.Contained command :=
  ⟨h.1, fun size hsize => (h.2 size hsize).1⟩

instance (s : Screen) : Decidable s.SavedInside := inferInstanceAs (Decidable (_ ∧ _))

instance (s : Screen) (rows : Int) : Decidable (s.ResizeFits rows) :=
  inferInstanceAs (Decidable (_ ∧ _))

instance (s : Screen) (command : Command) : Decidable (s.Tame command) :=
  inferInstanceAs (Decidable (_ ∧ _))

instance (s : Screen) (command : Command) : Decidable (s.Contained command) :=
  inferInstanceAs (Decidable (_ ∧ _))

theorem Geometry.windowManip (h : s.Geometry) (params : List Int)
    (htame : ∀ size, requestedSize params = some size → s.scrollTop < size.1) :
    (s.windowManip params).Geometry := by
  unfold Screen.windowManip
  split
  · rename_i size hsize
    have hpos := requestedSize_pos hsize
    exact h.resize hpos.1 hpos.2 (htame size hsize)
  · split
    · exact h.computes _
    · exact h

theorem Geometry.recolor (h : s.Geometry) (paint : Attributes → Attributes) :
    (s.recolor paint).Geometry :=
  h.of_frame ((frame_derefAt _ _ _ _).trans (keeps_intern s [] _).frame_eq)

theorem Geometry.dispatchOSC (h : s.Geometry) (code : Int) (data : List UInt8) :
    (s.dispatchOSC code data).Geometry := by
  have hcursor : ∀ color, { s with cursor := { s.cursor with customColor := color } }.Geometry :=
    fun _ => ⟨h.primary_full, h.alt_size, h.maxRows_eq, h.maxCols_eq, h.row_bounds,
      h.column_bounds, h.top_nonneg, h.top_lt_bottom, h.bottom_le⟩
  unfold Screen.dispatchOSC
  split
  · split
    · exact h.recolor _
    · exact h
  · split
    · exact h.recolor _
    · exact h
  · exact hcursor _
  · exact (h.recolor _).recolor _
  · exact hcursor _
  · exact h

theorem Geometry.dispatchESC (h : s.Geometry) (code designator : UInt8)
    (hsaved : Char.ofNat code.toNat = '8' → s.SavedInside) : (s.dispatchESC code designator).Geometry := by
  unfold Screen.dispatchESC
  split
  · split
    · exact h.of_frame rfl
    · exact h
  · exact h.of_frame rfl
  · exact h.of_frame rfl
  · exact h.of_frame rfl
  · exact h.reset
  · exact h.saveCursor
  · rename_i hcode
    exact h.restoreCursor (hsaved hcode)
  · exact h.moveCursor _ _
  · exact h.setCursor _ _
  · exact h.moveCursor _ _
  · unfold setTabStop
    split
    · exact h.of_frame rfl
    · exact h
  · exact h

theorem Geometry.decfra (h : s.Geometry) (params : List Int) : (s.decfra params).Geometry := by
  have hs := h.computes (positions params [1, 2, 3, 4])
  exact (keeps_eachCell hs.formed _ fun r c t ht => keeps_modifyAt ht _ r c).geometry hs

theorem Geometry.deccra (h : s.Geometry) (params : List Int) : (s.deccra params).Geometry := by
  refine Keeps.geometry (Keeps.upTo (h.computes _).formed fun _ _ _ _ _ ht =>
    Keeps.upTo ht fun _ _ _ _ _ hu => keeps_copyAt hu _ _ _ _) (h.computes _)

theorem Geometry.decrara (h : s.Geometry) (params : List Int) : (s.decrara params).Geometry := by
  have hs := h.computes (positions params [0, 1, 2, 3])
  exact (keeps_eachCell hs.formed _ fun r c t ht => keeps_reverseCell ht r c).geometry hs

theorem frame_sgr (s : Screen) (params : List Int) : (s.sgr params).frame = s.frame := rfl

theorem Geometry.decstbm (h : s.Geometry) (params : List Int) : (s.decstbm params).Geometry := by
  unfold Screen.decstbm
  dsimp only
  split
  · exact (h.computes _).setScrollRegion _ _
  · exact (h.computes _).setScrollRegion _ _

theorem Geometry.cup (h : s.Geometry) (params : List Int) : (s.cup params).Geometry := by
  unfold Screen.cup
  dsimp only
  split
  · exact ((h.computes _).computes _).setCursor _ _
  · exact (h.computes _).setCursor _ _

theorem Geometry.vpa (h : s.Geometry) (params : List Int) : (s.vpa params).Geometry := by
  unfold Screen.vpa
  split
  · exact (h.computes _).setCursor _ _
  · exact (h.computes _).setCursor _ _

theorem Geometry.sr (h : s.Geometry) : s.sr.Geometry := by
  unfold Screen.sr
  split
  · exact h.scrollDown _ _ _
  · exact h.setPosition _ _

theorem Geometry.ed (h : s.Geometry) (params : List Int) : (s.ed params).Geometry := by
  unfold Screen.ed
  split
  · exact (keeps_eraseToEnd h.formed _ _).geometry h
  · exact (keeps_eraseToStart h.formed _ _).geometry h
  · exact h.clear
  · exact h.clearScrollback.clear
  · exact h

theorem Geometry.el (h : s.Geometry) (params : List Int) : (s.el params).Geometry := by
  unfold Screen.el
  split
  · exact (keeps_eraseRow h.formed _ _ _ _).geometry h
  · exact (keeps_eraseRow h.formed _ _ _ _).geometry h
  · exact (keeps_eraseRow h.formed _ _ _ _).geometry h
  · exact h

theorem frame_tabs (s : Screen) (params : List Int) :
    (s.tbc params).frame = s.frame ∧ (s.ctc params).frame = s.frame := by
  constructor
  · unfold tbc clearTabStop clearAllTabStops
    split
    · split <;> rfl
    · rfl
    · rfl
  · unfold ctc setTabStop clearTabStop clearAllTabStops
    split
    · split <;> rfl
    · split <;> rfl
    · rfl
    · rfl

theorem Geometry.decscusr (h : s.Geometry) (params : List Int) : (s.decscusr params).Geometry := by
  unfold Screen.decscusr Cursor.setStyle
  dsimp only
  split
  · exact ⟨h.primary_full, h.alt_size, h.maxRows_eq, h.maxCols_eq, h.row_bounds,
      h.column_bounds, h.top_nonneg, h.top_lt_bottom, h.bottom_le⟩
  · exact h

theorem Geometry.dispatchCSI (h : s.Geometry) (privateMode : Bool) (code : CsiCode)
    (params : List Int) (hcontained : s.Contained (.csi privateMode code params)) :
    (s.dispatchCSI privateMode code params).Geometry := by
  have hline := fun f => keeps_setLine h.formed f s.cursor.row
  obtain ⟨hrestores, hsizes⟩ := hcontained
  cases code
  case CUU => exact h.moveBy _ _
  case CUD => exact h.moveBy _ _
  case CUF => exact h.moveBy _ _
  case HPR => exact h.moveBy _ _
  case CUB => exact h.moveBy _ _
  case CNL => exact (h.computes _).setCursor _ _
  case CPL => exact (h.computes _).setCursor _ _
  case CHA => exact (h.computes _).setCursor _ _
  case CUP => exact h.cup params
  case HVP => exact h.cup params
  case VPA => exact h.vpa params
  case SCP => exact h.saveCursor
  case RCP => exact h.restoreCursor (hrestores rfl)
  case IL => exact h.insertLines _ _
  case DL => exact h.deleteLines _ _
  case SU => exact h.scrollUpIn _ _ _
  case SD => exact h.scrollDown _ _ _
  case SR => exact h.sr
  case DECSTBM => exact h.decstbm params
  case SGR => exact h.of_frame (frame_sgr s params)
  case DECSCA => exact h.of_frame rfl
  case ED => exact h.ed params
  case EL => exact h.el params
  case EF => exact (keeps_eraseField h.formed _ _ _).geometry h
  case EA => exact (keeps_eraseArea h.formed _).geometry h
  case DCH => exact h.deleteChars _
  case ECH => exact (keeps_eraseChars h.formed _).geometry h
  case REP => exact h.repeatLastChar _
  case CHT => exact h.setCursor _ _
  case CBT => exact h.setCursor _ _
  case TBC => exact h.of_frame (frame_tabs s params).1
  case CTC => exact h.of_frame (frame_tabs s params).2
  case SM => exact h.setMode privateMode true params (by simp)
  case RM => exact h.setMode privateMode false params fun hp _ hmem =>
    hrestores (by simp [restores, hp, hmem])
  case DECCRA => exact h.deccra params
  case DECFRA => exact h.decfra params
  case DECRARA => exact h.decrara params
  case WINDOW_MANIP => exact h.windowManip params hsizes
  case DECSWL => exact (hline _).geometry h
  case DECDWL => exact (hline _).geometry h
  case DECDHL_TOP =>
    exact ((hline _).trans (keeps_setLine ((hline _).formed h.formed) _ _)).geometry h
  case DECDHL_BOTTOM =>
    exact ((hline _).trans (keeps_setLine ((hline _).formed h.formed) _ _)).geometry h
  case ICH => exact h.ich params
  case NP => exact h.moveBy _ _
  case PP => exact (h.computes _).moveBy _ _
  case DECSCUSR => exact h.decscusr params
  all_goals exact h

/-- The step lemma of the geometry. -/
theorem Geometry.execute (h : s.Geometry) {command : Command} (hcontained : s.Contained command) :
    (s.execute command).Geometry := by
  cases command with
  | ground ch => exact h.handleGround ch
  | csi privateMode code params => exact h.dispatchCSI privateMode code params hcontained
  | esc code designator =>
    exact h.dispatchESC code designator fun hcode => hcontained.1 (by simp [restores, hcode])
  | osc code data => exact h.dispatchOSC code data

theorem Geometry.make (hrows : 0 < rows) (hcols : 0 < cols) :
    (Screen.make rows cols).Geometry ∧ (Screen.make rows cols).CoversAll := by
  have hgrid : (Grid.make rows cols).size = (rows, cols, (rows * cols).toNat) := by
    rw [Grid.make, Grid.size_resize _ (by omega) (by omega), show max 1 rows = rows by omega,
      show max 1 cols = cols by omega]
  have hfull : (Grid.make rows cols).Full := Grid.resize_full _ (by omega) (by omega)
  have hsize := hgrid
  simp only [Grid.size, Prod.mk.injEq] at hsize
  unfold Screen.make
  generalize AttributeStore.initial.intern (fun _ => false) {} = first
  have hbase : Geometry
      { primaryGrid := Grid.make rows cols, altGrid := Grid.make rows cols,
        cursor := { maxRows := rows, maxCols := cols }, currentAttributes := first.1,
        scrollBottom := rows, store := first.2 } :=
    ⟨hfull, rfl, hsize.1.symm, hsize.2.1.symm, ⟨le_rfl, show 0 < (Grid.make rows cols).rows by omega⟩,
      ⟨le_rfl, show 0 < (Grid.make rows cols).columns by omega⟩, le_rfl, hrows, hsize.1.ge⟩
  have hcovers := (resize_covers_iff (s :=
      { primaryGrid := Grid.make rows cols, altGrid := Grid.make rows cols,
        cursor := { maxRows := rows, maxCols := cols }, currentAttributes := first.1,
        scrollBottom := rows, store := first.2 }) ⟨rfl, hsize.1.symm⟩ hrows hcols).2 hsize.1.ge
  exact ⟨(hbase.resize hrows hcols hrows).of_frame rfl, hcovers⟩

end Screen

/-- A byte from the stream, or a resize from outside. -/
inductive Event where
  | byte (b : UInt8)
  | resize (rows cols : Int)

def Event.Positive : Event → Prop
  | .byte _ => True
  | .resize rows cols => 0 < rows ∧ 0 < cols

namespace Terminal

def make (rows cols : Int) : Terminal := { screen := Screen.make rows cols }

def step (t : Terminal) : Event → Terminal
  | .byte b => t.feed b
  | .resize rows cols => { t with screen := t.screen.resize rows cols }

def run (t : Terminal) (events : List Event) : Terminal := events.foldl step t

/-- The size to which an event resizes the screen. -/
def newSize (t : Terminal) : Event → Option (Int × Int)
  | .byte b => (t.command b).bind Screen.newSize
  | .resize rows cols => some (rows, cols)

/-- The command that the event completes is tame, or its size fits. -/
def Tame (t : Terminal) : Event → Prop
  | .byte b => ∀ command ∈ t.command b, t.screen.Tame command
  | .resize rows _ => t.screen.ResizeFits rows

def TameRun : Terminal → List Event → Prop
  | _, [] => True
  | t, event :: events => t.Tame event ∧ TameRun (t.step event) events

instance (t : Terminal) : ∀ event, Decidable (t.Tame event)
  | .byte b => inferInstanceAs (Decidable (∀ command ∈ t.command b, t.screen.Tame command))
  | .resize rows _ => inferInstanceAs (Decidable (t.screen.ResizeFits rows))

instance decidableTameRun : ∀ (t : Terminal) (events : List Event), Decidable (t.TameRun events)
  | _, [] => inferInstanceAs (Decidable True)
  | t, event :: events =>
    have := decidableTameRun (t.step event) events
    inferInstanceAs (Decidable (_ ∧ _))

variable {t : Terminal}

theorem step_geometry (h : t.screen.Geometry) {event : Event} (hpos : event.Positive)
    (htame : t.Tame event) : (t.step event).screen.Geometry := by
  cases event with
  | byte b =>
    rw [step, feed_screen]
    cases hcommand : t.command b with
    | none => exact h
    | some command => exact h.execute (htame command hcommand).contained
  | resize rows cols => exact h.resize hpos.1 hpos.2 htame.1

theorem step_covers (hcovers : t.screen.CoversAll) {event : Event} (hpos : event.Positive)
    (htame : t.Tame event) (hsize : (t.newSize event).isSome = true) :
    (t.step event).screen.CoversAll := by
  cases event with
  | resize rows cols => exact (Screen.resize_covers_iff hcovers hpos.1 hpos.2).2 (htame.2 hcovers)
  | byte b =>
    rw [step, feed_screen]
    cases hcommand : t.command b with
    | none => exact hcovers
    | some command =>
      have hfits := (htame command hcommand).2
      rw [newSize, hcommand, Option.bind_some] at hsize
      unfold Screen.newSize at hsize hfits
      split at hsize
      · rename_i privateMode params
        obtain ⟨size, hrequested⟩ := Option.isSome_iff_exists.1 hsize
        have hpositive := Screen.requestedSize_pos hrequested
        show (t.screen.windowManip params).CoversAll
        rw [Screen.windowManip, hrequested]
        exact (Screen.resize_covers_iff hcovers hpositive.1 hpositive.2).2
          ((hfits size hrequested).2 hcovers)
      · exact absurd hsize (by simp)

theorem run_geometry (h : t.screen.Geometry) {events : List Event}
    (hpos : ∀ event ∈ events, event.Positive) (htame : t.TameRun events) :
    (t.run events).screen.Geometry := by
  induction events generalizing t with
  | nil => exact h
  | cons event events ih =>
    exact ih (step_geometry h (hpos event (by simp)) htame.1)
      (fun e he => hpos e (List.mem_cons_of_mem _ he)) htame.2

theorem TameRun.append {front back : List Event} (h : t.TameRun (front ++ back)) :
    t.TameRun front ∧ (t.run front).TameRun back := by
  induction front generalizing t with
  | nil => exact ⟨trivial, h⟩
  | cons event front ih =>
    obtain ⟨hfront, hback⟩ := ih h.2
    exact ⟨⟨h.1, hfront⟩, hback⟩

/-- Where every restored position lies on the screen and every new size fits the margins, the
geometry holds in every state, and a region of the whole screen stays one. -/
theorem geometry_runs {rows cols : Int} (hrows : 0 < rows) (hcols : 0 < cols)
    {front back : List Event} (hpos : ∀ event ∈ front ++ back, event.Positive)
    (htame : (make rows cols).TameRun (front ++ back)) :
    ((make rows cols).run front).screen.Geometry ∧
      ∀ event events, back = event :: events →
        (((make rows cols).run front).newSize event).isSome = true →
        ((make rows cols).run front).screen.CoversAll →
        (((make rows cols).run front).step event).screen.CoversAll := by
  obtain ⟨hfront, hback⟩ := htame.append
  refine ⟨run_geometry (Screen.Geometry.make hrows hcols).1
    (fun e he => hpos e (List.mem_append_left _ he)) hfront, ?_⟩
  rintro event events rfl hsize hcovers
  exact step_covers hcovers (hpos event (by simp)) hback.1 hsize

/-- A screen that is saved in its corner and then made smaller. -/
def shrunk : List Event :=
  [.byte 0x1B, .byte 0x5B, .byte 0x32, .byte 0x3B, .byte 0x32, .byte 0x48, .byte 0x1B, .byte 0x37,
    .resize 1 1, .byte 0x1B, .byte 0x38]

/-- Until the position is restored all is well. -/
theorem geometry_before_restore : ((make 2 2).run (shrunk.take 10)).screen.Geometry :=
  (@geometry_runs 2 2 (by decide) (by decide) (shrunk.take 10) []
    (by simp [shrunk, Event.Positive])
    (by decide)).1

/-- The position saved before comes back outside the screen. -/
theorem restored_outside :
    ¬ ∀ (rows cols : Int) (events : List Event), 0 < rows → 0 < cols →
      (∀ event ∈ events, event.Positive) →
      ((make rows cols).run events).screen.Geometry := by
  intro h
  have hgeometry := h 2 2 shrunk (by decide) (by decide) (by simp [shrunk, Event.Positive])
  have hrow := hgeometry.row_bounds.2
  revert hrow
  decide

end Terminal

end JobAnsi
