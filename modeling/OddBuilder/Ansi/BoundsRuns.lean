import OddBuilder.Ansi.Bounds

/-!
# Staying in range over whole runs

`fits` says of a command that its computations stay in the range of an `int` and
its rows inside the grid. Runs whose commands all fit never go out of range.
-/

namespace JobAnsi

open CountedLoop

namespace Screen

variable {s t : Screen}
variable {params : List Int}

theorem InBounds.clear (h : s.InBounds) : s.clear.InBounds := by
  refine InBounds.setCursor (h.of_keeps (Keeps.upTo h.formed fun r t hr hr' hframe ht =>
    Keeps.upTo ht fun c u hc hc' hframe' hu => keeps_modifyCell hu ?_ _)) 0 0
  have hrow : s.activeGrid.Inside r 0 := ⟨⟨hr, hr'⟩, le_rfl, h.formed.active_full.columns_pos⟩
  rw [ht.inside_frame hframe']
  exact ⟨((h.formed.inside_frame hframe).2 hrow).1, hc, hc'⟩

theorem InBounds.clearScrollback (h : s.InBounds) : s.clearScrollback.InBounds :=
  h.of_keeps ⟨rfl, id⟩

theorem InBounds.ed (h : s.InBounds) (params : List Int) : (s.ed params).InBounds := by
  unfold Screen.ed
  split
  · exact h.of_keeps (keeps_eraseToEnd h.formed _ _)
  · exact h.of_keeps (keeps_eraseToStart h.formed _ _)
  · exact h.clear
  · exact h.clearScrollback.clear
  · exact h

theorem InBounds.el (h : s.InBounds) (params : List Int) : (s.el params).InBounds := by
  unfold Screen.el
  split
  · exact h.of_keeps (keeps_eraseRow h.formed _ _ _ _)
  · exact h.of_keeps (keeps_eraseRow h.formed _ _ _ _)
  · exact h.of_keeps (keeps_eraseRow h.formed _ _ _ _)
  · exact h

theorem InBounds.deleteChars (h : s.InBounds) {count : Int}
    (hfits : inInt (s.columnCount - count) = true) : (s.deleteChars count).InBounds := by
  have hs : (s.computes [s.columnCount - count]).InBounds := h.computes (by simpa using hfits)
  have hshift : (s.computes [s.columnCount - count]).Keeps
      (upTo s.cursor.column (s.columnCount - count) (fun i t =>
        if t.hasCell s.cursor.row i && t.hasCell s.cursor.row (i + count) &&
            !(t.activeGrid.cell s.cursor.row i).protectWrite then
          t.modifyCell (fun _ => t.activeGrid.cell s.cursor.row (i + count)) s.cursor.row i
        else t) (s.computes [s.columnCount - count])) := by
    refine Keeps.upTo hs.formed fun i t _ _ _ ht => ?_
    split
    · rename_i hcells
      simp only [Bool.and_eq_true] at hcells
      exact keeps_modifyCell ht (hasCell_iff.1 hcells.1.1) _
    · exact Keeps.refl t
  exact hs.of_keeps (hshift.trans (keeps_eraseRow (hshift.formed hs.formed) resetCell _ _ _))

theorem InBounds.repeatLastChar (h : s.InBounds) (count : Int) :
    (s.repeatLastChar count).InBounds := by
  unfold Screen.repeatLastChar
  split
  · exact h
  · refine InBounds.setPosition (h.of_keeps ?_) _ _
    exact Keeps.upTo h.formed fun _ _ _ _ _ ht => keeps_repeatCell ht _ _

/-- The cursor lies behind the row, or in it with room for no negative number of cells. -/
def fitsInsert (s : Screen) (n : Int) : Bool :=
  s.columnCount ≤ s.cursor.column ∨
    s.cursor.row < s.rowCount ∧ 0 ≤ n ∧ s.cursor.column + n ≤ 2147483647

theorem InBounds.ich (h : s.InBounds) (hfits : s.fitsInsert (params.headD 1) = true) :
    (s.ich params).InBounds := by
  simp only [fitsInsert, decide_eq_true_eq] at hfits
  unfold Screen.ich
  dsimp only
  split
  · exact h
  · obtain ⟨hrow⟩ := hfits.resolve_left (by assumption)
    have hcolumn := h.column_bounds
    have hs : (s.computes [s.cursor.column + params.headD 1]).InBounds := h.computes (by
      simp only [List.all_cons, List.all_nil, Bool.and_true, inInt_iff]
      omega)
    have hin : ∀ {t : Screen}, t.frame = s.frame → ∀ c, 0 ≤ c → c < s.columnCount →
        t.activeGrid.Inside s.cursor.row c := fun hframe c hge hlt => by
      rw [h.formed.inside_frame hframe, h.formed.inside_iff]
      exact ⟨⟨h.row_bounds.1, hrow⟩, hge, hlt⟩
    have hmove : (s.computes [s.cursor.column + params.headD 1]).Keeps
        (downTo (s.columnCount - 1) (s.cursor.column + params.headD 1) (fun i t =>
          t.copyDeref s.cursor.row (i - params.headD 1) i)
          (s.computes [s.cursor.column + params.headD 1])) :=
      Keeps.downTo hs.formed fun i t hge hle hframe ht =>
        keeps_copyDeref ht (hin hframe _ (by omega) (by omega)) (hin hframe _ (by omega) (by omega))
    refine hs.of_keeps (hmove.trans (Keeps.upTo (hmove.formed hs.formed)
      fun i t hge hlt hframe ht => keeps_derefAt ht ?_ _))
    exact hin (hframe.trans hmove.frame_eq) i (by omega) (by omega)

theorem keeps_shiftRight (h : s.Formed) {row col : Int} (hin : s.activeGrid.Inside row col) :
    s.Keeps (s.shiftRight row col) := by
  have hshift : s.Keeps (downTo (s.activeGrid.columns - 2) col
      (fun i t => t.setGrid (t.activeGrid.copyCell row i row (i + 1))) s) := by
    refine Keeps.downTo h fun i t hge hle hframe ht => ?_
    refine keeps_setGrid (Grid.size_copyCell _ _ _ _ _) fun hs => ?_
    have hcol := hin.2
    have hsrc : t.activeGrid.Inside row i :=
      (h.inside_frame hframe).2 ⟨hin.1, by omega, by omega⟩
    have hdst : t.activeGrid.Inside row (i + 1) :=
      (h.inside_frame hframe).2 ⟨hin.1, by omega, by omega⟩
    simp [Grid.copyCell, Grid.store, ht.active_full.reaches hsrc, ht.active_full.reaches hdst,
      hs.active]
  exact hshift.trans (keeps_modifyCell (hshift.formed h)
    ((h.inside_frame hshift.frame_eq).2 hin) _)

theorem InBounds.advance (h : s.InBounds) (col : Int) : (s.advance col).InBounds := by
  unfold Screen.advance
  split_ifs
  · exact h.of_keeps ⟨rfl, id⟩
  · exact h
  · exact h.setPosition _ _

theorem InBounds.writeCell (h : s.InBounds) {row col : Int} (hin : s.activeGrid.Inside row col)
    (ch : Nat) : (s.writeCell row col ch).InBounds := by
  have hattr := keeps_setAttributes s [] (s.store.value s.currentAttributes)
    { s.activeGrid.cell row col with char := ch }
  refine InBounds.advance (h.of_keeps (hattr.trans (keeps_modifyCell (hattr.formed h.formed) ?_ _)))
    col
  rw [setAttributes_activeGrid]
  exact hin

theorem InBounds.writeChar (h : s.InBounds)
    (hin : s.activeGrid.Inside s.cursor.row s.cursor.column) (ch : Nat) :
    (s.writeChar ch).InBounds := by
  unfold Screen.writeChar
  split
  · exact h
  · exact h.writeCell hin ch

theorem InBounds.wrapNow (h : s.InBounds) : s.wrapNow.InBounds := by
  have hs : { s with wrapPending := false }.InBounds := h.of_keeps ⟨rfl, id⟩
  unfold Screen.wrapNow
  split
  · dsimp only
    split
    · exact hs.scrollUp.setPosition _ _
    · exact hs.setPosition _ _
  · exact h

theorem keeps_makeRoom (h : s.Formed)
    (hin : s.activeGrid.Inside s.cursor.row s.cursor.column) : s.Keeps s.makeRoom := by
  unfold Screen.makeRoom
  split
  · exact keeps_shiftRight h hin
  · exact Keeps.refl s

theorem InBounds.putPrintable (h : s.InBounds) (ch : Nat) : (s.putPrintable ch).InBounds := by
  have hs := h.wrapNow
  unfold Screen.putPrintable
  dsimp only
  split
  · rename_i hcell
    have hin := hasCell_iff.1 hcell
    have hroom := keeps_makeRoom hs.formed hin
    refine (hs.of_keeps hroom).writeChar ?_ _
    rw [hs.formed.inside_frame hroom.frame_eq, (frame_eq_iff.1 hroom.frame_eq).2.2.1]
    exact hin
  · exact hs

/-- A translated character is none of the controls that `putChar` knows. -/
theorem putChar_printable (s : Screen) {ch : Nat} (hch : 0x20 ≤ ch) :
    s.putChar ch = s.putPrintable ch := by
  rw [Screen.putChar, if_neg (by omega), if_neg (by omega), if_neg (by omega)]

theorem InBounds.lineFeed (h : s.InBounds) : s.lineFeed.InBounds := by
  unfold Screen.lineFeed
  split
  · exact h.scrollUp
  · exact h.moveCursor (by omega) (by omega)

theorem InBounds.handleGround (h : s.InBounds) (ch : Nat) : (s.handleGround ch).InBounds := by
  refine InBounds.setCursor ?_ _ _
  split_ifs
  · exact h.setCursor _ _
  · exact h.lineFeed
  · exact h.moveCursor (by omega) (by omega)
  · exact h.setCursor _ _
  · rename_i hch
    rw [putChar_printable s (s.charset.printable_applyCharset hch)]
    exact h.putPrintable _
  · exact h

/-- The cells of a new size and its last tab stop can be counted. -/
def fitsSize (size : Int × Int) : Bool :=
  inInt (size.1 * size.2) && inInt (8 * ((size.2 + 7) / 8))

theorem InBounds.resize (h : s.InBounds) {rows cols : Int} (hrows : 0 < rows) (hcols : 0 < cols)
    (hfits : fitsSize (rows, cols) = true) : (s.resize rows cols).InBounds := by
  simp only [fitsSize, Bool.and_eq_true] at hfits
  obtain ⟨harea, htabs⟩ := hfits
  obtain ⟨hprimary, halt, hr, hc⟩ := resize_sizes (s := s) hrows hcols
  obtain ⟨hscrollTop⟩ := resize_margins (s := s) hrows hcols
  have hrow := clamp_bounds (n := s.cursor.row) (show 0 ≤ rows - 1 by omega)
  have hcol := clamp_bounds (n := s.cursor.column) (show 0 ≤ cols - 1 by omega)
  have hbottom := h.bottom_bounds
  have hsize : rows * cols ≤ 2147483647 := (inInt_iff.1 harea).2
  have hrowsLe : rows ≤ 2147483647 := by
    have hle := Int.mul_le_mul_of_nonneg_left (show 1 ≤ cols from hcols) hrows.le
    omega
  have hcolsLe : cols ≤ 2147483647 := by
    have hle := Int.mul_le_mul_of_nonneg_right (show 1 ≤ rows from hrows) hcols.le
    omega
  constructor
  · rw [hprimary]
    exact s.primaryGrid.resize_full hrows hcols
  · rw [hprimary, halt, Grid.size_resize _ hrows hcols, Grid.size_resize _ hrows hcols]
  · refine ⟨?_, ?_, ?_⟩
    · rw [show (s.resize rows cols).safe = (s.safe && inInt (8 * ((cols + 7) / 8))) by
        unfold Screen.resize
        dsimp only
        split <;> simp [Screen.computes], htabs, h.sound.1]
      rfl
    · rw [hprimary, Grid.resize_safe h.primary_full hrows hcols harea]
      exact h.sound.2.1
    · rw [halt, Grid.resize_safe h.formed.alt_full hrows hcols harea]
      exact h.sound.2.2
  · rw [hr, hc]
    exact hsize
  · rw [resize_cursor, hr]
    rfl
  · rw [resize_cursor, hc]
    rfl
  · rw [resize_cursor]
    exact ⟨hrow.1, show clamp s.cursor.row 0 (rows - 1) < 2147483647 by omega⟩
  · rw [resize_cursor]
    exact ⟨hcol.1, show clamp s.cursor.column 0 (cols - 1) < 2147483647 by omega⟩
  · rw [resize_cursor]
    exact h.saved_bounds
  · rw [hscrollTop]
    exact h.top_bounds
  · omega

theorem InBounds.reset (h : s.InBounds) : s.reset.InBounds := by
  have hs := h.clear.clearScrollback
  unfold Screen.reset
  dsimp only
  split
  · exact hs.of_keeps ⟨rfl, id⟩
  · exact ⟨hs.primary_full, hs.alt_size, hs.sound, hs.sized, hs.maxRows_eq, hs.maxCols_eq,
      hs.row_bounds, hs.column_bounds, hs.saved_bounds, ⟨le_rfl, by simp⟩,
      hs.formed.rows_pos.le, le_rfl⟩

theorem InBounds.enterAlternateGrid (h : s.InBounds) : s.enterAlternateGrid.InBounds := by
  refine InBounds.setScrollRegion (h.of_keeps ?_) _ _
  exact ⟨by simp [frame, Grid.size], id⟩

theorem InBounds.windowManip (h : s.InBounds)
    (hsize : ∀ size, requestedSize params = some size → fitsSize size = true)
    (hreport : params.head? = some 18 → [s.rowCount * 10, s.columnCount * 6].all inInt = true) :
    (s.windowManip params).InBounds := by
  unfold Screen.windowManip
  split
  · rename_i size hrequested
    have hpos := requestedSize_pos hrequested
    exact h.resize hpos.1 hpos.2 (hsize size hrequested)
  · split
    · rename_i hhead
      exact h.computes (hreport hhead)
    · exact h

/-- The origin mode moves the cursor by the top margin. -/
def fitsModes : Screen → List Int → Bool
  | _, [] => true
  | s, code :: params =>
    (code ≠ 6 || inInt (s.cursor.row + s.scrollTop)) && fitsModes (s.dispatchPrivate true code) params

theorem InBounds.dispatchPrivate (h : s.InBounds) (set : Bool) {code : Int}
    (horigin : set = true → code = 6 → inInt (s.cursor.row + s.scrollTop) = true) :
    (s.dispatchPrivate set code).InBounds := by
  unfold Screen.dispatchPrivate
  split
  · have hs : { s with originMode := set }.InBounds := h.of_keeps ⟨rfl, id⟩
    unfold Screen.setOriginMode
    split
    · rename_i hset
      refine hs.moveCursorRelative ?_ _ _
      have hcolumn := h.column_bounds
      have hsum := inInt_iff.1 (horigin hset rfl)
      simp only [List.all_cons, List.all_nil, Bool.and_true, Bool.and_eq_true, inInt_iff]
      omega
    · exact hs
  · exact h.of_keeps ⟨rfl, id⟩
  · split
    · exact h.enterAlternateGrid
    · exact h.of_keeps ⟨rfl, id⟩
  · split
    · exact h.saveCursor.enterAlternateGrid
    · exact InBounds.restoreCursor (h.of_keeps ⟨rfl, id⟩)
  · split
    · exact h.saveCursor
    · exact h.restoreCursor
  · exact h

theorem InBounds.setModes (h : s.InBounds) (hfits : s.fitsModes params = true) :
    (params.foldl (Screen.dispatchPrivate true) s).InBounds := by
  induction params generalizing s with
  | nil => exact h
  | cons code params ih =>
    simp only [fitsModes, Bool.and_eq_true, Bool.or_eq_true, decide_eq_true_eq] at hfits
    exact ih (h.dispatchPrivate true fun _ hcode => hfits.1.resolve_left (absurd hcode)) hfits.2

theorem InBounds.resetModes (h : s.InBounds) (params : List Int) :
    (params.foldl (Screen.dispatchPrivate false) s).InBounds := by
  induction params generalizing s with
  | nil => exact h
  | cons code params ih =>
    exact ih (h.dispatchPrivate false (by simp))

theorem InBounds.publicModes (h : s.InBounds) (set : Bool) (params : List Int) :
    (params.foldl (Screen.dispatchPublic set) s).InBounds := by
  induction params generalizing s with
  | nil => exact h
  | cons code params ih =>
    refine ih ?_
    unfold Screen.dispatchPublic
    split <;> exact h.of_keeps ⟨rfl, id⟩

theorem InBounds.setMode (h : s.InBounds) (privateMode set : Bool)
    (hfits : privateMode = true → set = true → s.fitsModes params = true) :
    (s.setMode privateMode set params).InBounds := by
  cases privateMode with
  | false => exact h.publicModes set params
  | true =>
    cases set with
    | false => exact h.resetModes params
    | true => exact h.setModes (hfits rfl rfl)

/-- A command that paints the cell under the cursor. -/
def paints (code : Int) (data : List UInt8) : Bool :=
  match code with
  | 10 | 11 => (parseColorString data).isSome
  | 104 => true
  | _ => false

theorem keeps_recolor (h : s.Formed) (hin : s.activeGrid.Inside s.cursor.row s.cursor.column)
    (paint : Attributes → Attributes) : s.Keeps (s.recolor paint) := by
  have hintern := keeps_intern s []
    (paint (s.store.value (shown (s.activeGrid.cell s.cursor.row s.cursor.column))))
  exact hintern.trans (keeps_derefAt (hintern.formed h)
    ((h.inside_frame hintern.frame_eq).2 hin) _)

theorem InBounds.dispatchOSC (h : s.InBounds) {code : Int} {data : List UInt8}
    (hfits : paints code data = true → s.hasCell s.cursor.row s.cursor.column = true) :
    (s.dispatchOSC code data).InBounds := by
  have hpaint := fun hp => keeps_recolor h.formed (hasCell_iff.1 (hfits hp))
  unfold Screen.dispatchOSC
  split
  · split
    · rename_i hcolor
      exact h.of_keeps (hpaint (by simp [paints, hcolor]) _)
    · exact h
  · split
    · rename_i hcolor
      exact h.of_keeps (hpaint (by simp [paints, hcolor]) _)
    · exact h
  · exact ⟨h.primary_full, h.alt_size, h.sound, h.sized, h.maxRows_eq, h.maxCols_eq, h.row_bounds,
      h.column_bounds, h.saved_bounds, h.top_bounds, h.bottom_bounds⟩
  · have hfirst := hpaint rfl (Attributes.setForeground { r := 0, g := 255, b := 0 })
    refine h.of_keeps (hfirst.trans (keeps_recolor (hfirst.formed h.formed) ?_ _))
    rw [h.formed.inside_frame hfirst.frame_eq, (frame_eq_iff.1 hfirst.frame_eq).2.2.1]
    exact hasCell_iff.1 (hfits rfl)
  · exact ⟨h.primary_full, h.alt_size, h.sound, h.sized, h.maxRows_eq, h.maxCols_eq, h.row_bounds,
      h.column_bounds, h.saved_bounds, h.top_bounds, h.bottom_bounds⟩
  · exact h

/-- The rows of the rectangle's new place, and its columns, end at a number. -/
def fitsCopy (s : Screen) (params : List Int) : Bool :=
  let src := s.rectangle (position params 0 0) (position params 1 0)
    (position params 2 (s.rowCount - 1)) (position params 3 (s.columnCount - 1))
  [clamp (position params 5 0) 0 (s.rowCount - 1) + (src.bottom - src.top + 1),
    clamp (position params 6 0) 0 (s.columnCount - 1) + (src.right - src.left + 1)].all inInt

/-- The parameters keep all computations of the sequence in the range of an `int`, and all its
accesses in the grid. -/
def fitsCSI (s : Screen) (privateMode : Bool) (code : CsiCode) (params : List Int) : Bool :=
  let n := params.headD 1
  let row := s.cursor.row
  match code with
  | .CUU => s.fitsMove (-n) 0
  | .CUD => s.fitsMove n 0
  | .CUF | .HPR => s.fitsMove 0 n
  | .CUB => s.fitsMove 0 (-n)
  | .CNL => inInt (row + n)
  | .CPL => inInt (row - n)
  | .CHA => inInt (n - 1)
  | .CUP | .HVP => [position params 0 0, position params 1 0].all inInt &&
      (!s.originMode || inInt (position params 0 0 + s.scrollTop))
  | .VPA => if s.originMode then [n + s.scrollTop, n + s.scrollTop - 1].all inInt
      else inInt (n - 1)
  | .IL => s.scrollBottom ≤ row || n ≤ 0 || inInt (row + n)
  | .DL => row < s.scrollTop || s.scrollBottom ≤ row || n ≤ 0 || inInt (row + n)
  | .SU => s.fitsScrollUp n
  | .SD => s.fitsScrollDown n
  | .DECSTBM => [position params 0 0, position params 1 (s.rowCount - 1)].all inInt
  | .DCH => inInt (s.columnCount - n)
  | .ICH => s.fitsInsert n
  | .NP => s.fitsMove (s.rowCount * n) 0
  | .PP => inInt (s.rowCount * n) && s.fitsMove (-(s.rowCount * n)) 0
  | .SM => !privateMode || s.fitsModes params
  | .DECFRA => (positions params [1, 2, 3, 4]).all inInt
  | .DECRARA => (positions params [0, 1, 2, 3]).all inInt
  | .DECCRA => (positions params [0, 1, 2, 3, 5, 6]).all inInt && s.fitsCopy params
  | .WINDOW_MANIP =>
    match requestedSize params with
    | some size => fitsSize size
    | none => params.head? ≠ some 18 || [s.rowCount * 10, s.columnCount * 6].all inInt
  | _ => true

theorem InBounds.cup (h : s.InBounds)
    (hpositions : [position params 0 0, position params 1 0].all inInt = true)
    (horigin : s.originMode = true → inInt (position params 0 0 + s.scrollTop) = true) :
    (s.cup params).InBounds := by
  have hs := h.computes hpositions
  unfold Screen.cup
  dsimp only
  split
  · rename_i hmode
    exact (hs.computes (by simpa [Screen.computes] using horigin hmode)).setCursor _ _
  · exact hs.setCursor _ _

theorem InBounds.vpa (h : s.InBounds) (hfits : (if s.originMode then
      [params.headD 1 + s.scrollTop, params.headD 1 + s.scrollTop - 1].all inInt
      else inInt (params.headD 1 - 1)) = true) : (s.vpa params).InBounds := by
  unfold Screen.vpa
  split
  · rename_i hmode
    rw [if_pos hmode] at hfits
    exact (h.computes hfits).setCursor _ _
  · rename_i hmode
    rw [if_neg hmode] at hfits
    exact (h.computes (by simpa using hfits)).setCursor _ _

theorem InBounds.decstbm (h : s.InBounds)
    (hfits : [position params 0 0, position params 1 (s.rowCount - 1)].all inInt = true) :
    (s.decstbm params).InBounds := by
  have hs := h.computes hfits
  unfold Screen.decstbm
  dsimp only
  split
  · exact hs.setScrollRegion _ _
  · exact hs.setScrollRegion _ _

theorem InBounds.sr (h : s.InBounds) : s.sr.InBounds := by
  have htop := h.top_bounds
  unfold Screen.sr
  split
  · refine h.scrollDown (by omega) ?_
    simp only [fitsScrollDown, decide_eq_true_eq]
    omega
  · exact h.setPosition _ _

theorem InBounds.insertLines (h : s.InBounds) {n : Int} (hn : n ≤ 2147483647)
    (hfits : (s.scrollBottom ≤ s.cursor.row || n ≤ 0 || inInt (s.cursor.row + n)) = true) :
    (s.insertLines s.cursor.row n).InBounds := by
  simp only [Bool.or_eq_true, decide_eq_true_eq, inInt_iff] at hfits
  exact h.insertFrom h.bottom_bounds.1 h.bottom_bounds.2 hn fun _ _ => by omega

theorem InBounds.deleteLines (h : s.InBounds) {n : Int} (hn : n ≤ 2147483647)
    (hfits : (s.cursor.row < s.scrollTop || s.scrollBottom ≤ s.cursor.row || n ≤ 0 ||
      inInt (s.cursor.row + n)) = true) : (s.deleteLines s.cursor.row n).InBounds := by
  simp only [Bool.or_eq_true, decide_eq_true_eq, inInt_iff] at hfits
  unfold Screen.deleteLines
  split
  · exact h
  · exact h.deleteFrom h.bottom_bounds.1 h.bottom_bounds.2 hn fun _ _ => by omega

theorem keeps_tabs (s : Screen) (params : List Int) :
    s.Keeps (s.tbc params) ∧ s.Keeps (s.ctc params) := by
  constructor
  · unfold tbc clearTabStop clearAllTabStops
    split
    · split <;> exact ⟨rfl, id⟩
    · exact ⟨rfl, id⟩
    · exact Keeps.refl s
  · unfold ctc setTabStop clearTabStop clearAllTabStops
    split
    · split <;> exact ⟨rfl, id⟩
    · split <;> exact ⟨rfl, id⟩
    · exact ⟨rfl, id⟩
    · exact Keeps.refl s

theorem InBounds.decscusr (h : s.InBounds) (params : List Int) : (s.decscusr params).InBounds := by
  unfold Screen.decscusr Cursor.setStyle
  dsimp only
  split
  · exact ⟨h.primary_full, h.alt_size, h.sound, h.sized, h.maxRows_eq, h.maxCols_eq, h.row_bounds,
      h.column_bounds, h.saved_bounds, h.top_bounds, h.bottom_bounds⟩
  · exact h

theorem InBounds.dispatchCSI (h : s.InBounds) (privateMode : Bool) (code : CsiCode)
    (hparams : ∀ n ∈ params, inInt n = true) (hfits : s.fitsCSI privateMode code params = true) :
    (s.dispatchCSI privateMode code params).InBounds := by
  have hn : params.headD 1 ≤ 2147483647 := by
    cases params with
    | nil => simp
    | cons n params => exact (inInt_iff.1 (hparams n (by simp))).2
  have hline := fun f => keeps_setLine h.formed f s.cursor.row
  have hone : ∀ {n : Int}, inInt n = true → [n].all inInt = true := fun hn => by simpa using hn
  cases code
  case CUU => exact h.moveBy hfits
  case CUD => exact h.moveBy hfits
  case CUF => exact h.moveBy hfits
  case HPR => exact h.moveBy hfits
  case CUB => exact h.moveBy hfits
  case CNL => exact (h.computes (hone hfits)).setCursor _ _
  case CPL => exact (h.computes (hone hfits)).setCursor _ _
  case CHA => exact (h.computes (hone hfits)).setCursor _ _
  case CUP =>
    simp only [fitsCSI, Bool.and_eq_true, Bool.or_eq_true] at hfits
    exact h.cup hfits.1 fun hmode => hfits.2.resolve_left (by simp [hmode])
  case HVP =>
    simp only [fitsCSI, Bool.and_eq_true, Bool.or_eq_true] at hfits
    exact h.cup hfits.1 fun hmode => hfits.2.resolve_left (by simp [hmode])
  case VPA => exact h.vpa hfits
  case SCP => exact h.saveCursor
  case RCP => exact h.restoreCursor
  case IL => exact h.insertLines hn hfits
  case DL => exact h.deleteLines hn hfits
  case SU => exact h.scrollUpIn hn hfits
  case SD => exact h.scrollDown hn hfits
  case SR => exact h.sr
  case DECSTBM => exact h.decstbm hfits
  case SGR => exact h.of_keeps ⟨frame_sgr s params, id⟩
  case DECSCA => exact h.of_keeps ⟨rfl, id⟩
  case ED => exact h.ed params
  case EL => exact h.el params
  case EF => exact h.of_keeps (keeps_eraseField h.formed _ _ _)
  case EA => exact h.of_keeps (keeps_eraseArea h.formed _)
  case DCH => exact h.deleteChars hfits
  case ECH => exact h.of_keeps (keeps_eraseChars h.formed _)
  case REP => exact h.repeatLastChar _
  case CHT => exact h.setCursor _ _
  case CBT => exact h.setCursor _ _
  case TBC => exact h.of_keeps (keeps_tabs s params).1
  case CTC => exact h.of_keeps (keeps_tabs s params).2
  case SM =>
    simp only [fitsCSI, Bool.or_eq_true] at hfits
    exact h.setMode privateMode true fun hp _ => hfits.resolve_left (by simp [hp])
  case RM => exact h.setMode privateMode false (by simp)
  case DECCRA =>
    simp only [fitsCSI, Bool.and_eq_true] at hfits
    have hs := h.computes (List.all_append ▸ Bool.and_eq_true_iff.2 hfits)
    exact hs.of_keeps (Keeps.upTo hs.formed fun _ _ _ _ _ ht =>
      Keeps.upTo ht fun _ _ _ _ _ hu => keeps_copyAt hu _ _ _ _)
  case DECFRA =>
    have hs := h.computes hfits
    exact hs.of_keeps (keeps_eachCell hs.formed _ fun r c t ht => keeps_modifyAt ht _ r c)
  case DECRARA =>
    have hs := h.computes hfits
    exact hs.of_keeps (keeps_eachCell hs.formed _ fun r c t ht => keeps_reverseCell ht r c)
  case WINDOW_MANIP =>
    simp only [fitsCSI] at hfits
    refine h.windowManip (fun size hsize => ?_) fun hhead => ?_
    · simpa [hsize] using hfits
    · cases hrequested : requestedSize params with
      | none =>
        simp only [hrequested, Bool.or_eq_true, decide_eq_true_eq] at hfits
        exact hfits.resolve_left (absurd hhead)
      | some size =>
        unfold requestedSize at hrequested
        split at hrequested <;> simp_all
  case DECSWL => exact h.of_keeps (hline _)
  case DECDWL => exact h.of_keeps (hline _)
  case DECDHL_TOP =>
    exact h.of_keeps ((hline _).trans (keeps_setLine ((hline _).formed h.formed) _ _))
  case DECDHL_BOTTOM =>
    exact h.of_keeps ((hline _).trans (keeps_setLine ((hline _).formed h.formed) _ _))
  case ICH => exact h.ich hfits
  case NP => exact h.moveBy hfits
  case PP =>
    simp only [fitsCSI, Bool.and_eq_true] at hfits
    exact InBounds.moveBy (h.computes (hone hfits.1)) hfits.2
  case DECSCUSR => exact h.decscusr params
  all_goals exact h

theorem InBounds.dispatchESC (h : s.InBounds) (code designator : UInt8) :
    (s.dispatchESC code designator).InBounds := by
  unfold Screen.dispatchESC
  split
  · split
    · exact h.of_keeps ⟨rfl, id⟩
    · exact h
  · exact h.of_keeps ⟨rfl, id⟩
  · exact h.of_keeps ⟨rfl, id⟩
  · exact h.of_keeps ⟨rfl, id⟩
  · exact h.reset
  · exact h.saveCursor
  · exact h.restoreCursor
  · exact h.moveCursor (by omega) (by omega)
  · exact h.setCursor _ _
  · exact h.moveCursor (by omega) (by omega)
  · unfold setTabStop
    split
    · exact h.of_keeps ⟨rfl, id⟩
    · exact h
  · exact h

/-- Whether a command stays in range. Characters and escapes always do; a colour is for the cell
under the cursor. -/
def fits (s : Screen) : Command → Bool
  | .csi privateMode code params => s.fitsCSI privateMode code params
  | .osc code data => !paints code data || s.hasCell s.cursor.row s.cursor.column
  | _ => true

/-- The step lemma of the bounds. -/
theorem InBounds.execute (h : s.InBounds) {command : Command} (hnumbers : command.Numbers)
    (hfits : s.fits command = true) : (s.execute command).InBounds := by
  cases command with
  | ground ch => exact h.handleGround ch
  | csi privateMode code params => exact h.dispatchCSI privateMode code hnumbers hfits
  | esc code designator => exact h.dispatchESC code designator
  | osc code data =>
    simp only [fits, Bool.or_eq_true] at hfits
    exact h.dispatchOSC fun hpaints => hfits.resolve_left (by simp [hpaints])

theorem InBounds.make {rows cols : Int} (hrows : 0 < rows) (hcols : 0 < cols)
    (harea : rows * cols < 2147483648) : (Screen.make rows cols).InBounds := by
  have hint : inInt (rows * cols) = true := by
    have hpos := Int.mul_pos hrows hcols
    exact inInt_iff.2 (by omega)
  have hgrid : (Grid.make rows cols).Full ∧ (Grid.make rows cols).safe = true := by
    refine ⟨Grid.resize_full _ (by omega) (by omega), ?_⟩
    rw [Grid.make, Grid.resize, if_neg (by omega), show max 1 rows = rows by omega,
      show max 1 cols = cols by omega]
    simpa using hint
  obtain ⟨hgeometry⟩ := Geometry.make hrows hcols
  obtain ⟨hprimary, halt, hr, hc⟩ := resize_sizes (s :=
    { primaryGrid := Grid.make rows cols, altGrid := Grid.make rows cols,
      cursor := { maxRows := rows, maxCols := cols },
      currentAttributes := (AttributeStore.initial.intern (fun _ => false) {}).1,
      scrollBottom := rows, store := (AttributeStore.initial.intern (fun _ => false) {}).2 })
    hrows hcols
  have hrowCount : (Screen.make rows cols).rowCount = rows := hr
  have hcolumnCount : (Screen.make rows cols).columnCount = cols := hc
  have hsafe : ((Grid.make rows cols).resize rows cols).safe = true := by
    rw [Grid.resize_safe hgrid.1 hrows hcols hint]
    exact hgrid.2
  have hsized : (Screen.make rows cols).rowCount * (Screen.make rows cols).columnCount ≤
      2147483647 := by
    rw [hrowCount, hcolumnCount]
    omega
  have hrowsLe : rows ≤ 2147483647 := by
    have hle := Int.mul_le_mul_of_nonneg_left (show 1 ≤ cols from hcols) hrows.le
    omega
  have hcolsLe : cols ≤ 2147483647 := by
    have hle := Int.mul_le_mul_of_nonneg_right (show 1 ≤ rows from hrows) hcols.le
    omega
  have hrow := hgeometry.row_bounds
  have hcol := hgeometry.column_bounds
  have htop := hgeometry.top_nonneg
  have hbottom := hgeometry.bottom_le
  have hregion := hgeometry.top_lt_bottom
  constructor
  · exact hgeometry.primary_full
  · exact hgeometry.alt_size
  · refine ⟨rfl, ?_, ?_⟩
    · rw [show (Screen.make rows cols).primaryGrid = _ from hprimary]
      exact hsafe
    · rw [show (Screen.make rows cols).altGrid = _ from halt]
      exact hsafe
  · exact hsized
  · exact hgeometry.maxRows_eq
  · exact hgeometry.maxCols_eq
  · omega
  · omega
  · have hcursor : (Screen.make rows cols).cursor = _ := resize_cursor _ rows cols
    rw [hcursor]
    exact ⟨show (-1 : Int) < 2147483647 by omega, show (-1 : Int) < 2147483647 by omega⟩
  · omega
  · omega

end Screen

namespace Terminal

/-- The command that the byte completes stays in range. -/
def Fits (t : Terminal) (b : UInt8) : Prop := ∀ command ∈ t.command b, t.screen.fits command = true

def FitsRun : Terminal → List UInt8 → Prop
  | _, [] => True
  | t, b :: bytes => t.Fits b ∧ FitsRun (t.feed b) bytes

instance (t : Terminal) (b : UInt8) : Decidable (t.Fits b) :=
  inferInstanceAs (Decidable (∀ command ∈ t.command b, t.screen.fits command = true))

instance decidableFitsRun : ∀ (t : Terminal) (bytes : List UInt8), Decidable (t.FitsRun bytes)
  | _, [] => inferInstanceAs (Decidable True)
  | t, b :: bytes =>
    have := decidableFitsRun (t.feed b) bytes
    inferInstanceAs (Decidable (_ ∧ _))

variable {t : Terminal}

theorem numbers_command {b : UInt8} {command : Command} (h : t.command b = some command) :
    command.Numbers := by
  obtain ⟨ch, -, hhandled⟩ := Option.bind_eq_some_iff.1 h
  exact ANSIParser.numbers_handleCodepoint hhandled

theorem feed_inBounds (h : t.screen.InBounds) {b : UInt8} (hfits : t.Fits b) :
    (t.feed b).screen.InBounds := by
  rw [feed_screen]
  cases hcommand : t.command b with
  | none => exact h
  | some command => exact h.execute (numbers_command hcommand) (hfits command hcommand)

theorem parseInput_inBounds (h : t.screen.InBounds) {bytes : List UInt8}
    (hfits : t.FitsRun bytes) : (t.parseInput bytes).screen.InBounds := by
  induction bytes generalizing t with
  | nil => exact h
  | cons b bytes ih => exact ih (feed_inBounds h hfits.1) hfits.2

theorem FitsRun.append_left {front back : List UInt8} (h : t.FitsRun (front ++ back)) :
    t.FitsRun front := by
  induction front generalizing t with
  | nil => trivial
  | cons b front ih => exact ⟨h.1, ih h.2⟩

/-- Where every sequence fits the screen that it finds, no access leaves the grid and no
computation the integers, up to any byte of the stream. -/
theorem bounds_runs {rows cols : Int} (hrows : 0 < rows) (hcols : 0 < cols)
    (harea : rows * cols < 2147483648) {front back : List UInt8}
    (hfits : (make rows cols).FitsRun (front ++ back)) :
    ((make rows cols).parseInput front).screen.Sound :=
  (parseInput_inBounds (Screen.InBounds.make hrows hcols harea) hfits.append_left).sound

/-- Two rows of a screen of two rows are scrolled out. -/
theorem bounds_two_rows :
    ((make 2 2).parseInput [0x1B, 0x5B, 0x32, 0x53]).screen.Sound :=
  @bounds_runs 2 2 (by decide) (by decide) (by decide) [0x1B, 0x5B, 0x32, 0x53] []
    (by decide)

/-- `CSI 3 S` reads a third row of a screen that has two. -/
theorem scrolled_too_far :
    ¬ ∀ (rows cols : Int) (bytes : List UInt8), 0 < rows → 0 < cols → rows * cols < 2147483648 →
      ((make rows cols).parseInput bytes).screen.Sound := by
  intro h
  have hsafe := (h 2 2 [0x1B, 0x5B, 0x33, 0x53] (by decide) (by decide) (by decide)).1
  revert hsafe
  decide

end Terminal

end JobAnsi
