import OddBuilder.Ansi.Typing

/-!
# Autowrap

A character in the last column leaves a wrap pending, and the clamp at the end of
the parser's ground state takes it back. So no text through the parser ever
wraps: what does not fit the row is written over its last cell.
-/

namespace JobAnsi

open Utf8Decoder List

namespace Screen

variable {s t : Screen}
variable {text : List Nat} {cols rows : Nat}

/-- What typing without a wrap leaves alone. -/
def modes (s : Screen) : Bool × Int × CharsetTranslator × List (List Cell) :=
  (s.insertMode, s.protectionMode, s.charset, s.scrollback)

theorem modes_setAttributes (s : Screen) (held : List Ref) (attr : Attributes) (cell : Cell) :
    (s.setAttributes held attr cell).2.modes = s.modes := by
  unfold setAttributes
  split <;> rfl

theorem advance_cursor (h : s.Geometry) :
    (s.advance s.cursor.column).cursor =
      { s.cursor with column := min (s.cursor.column + 1) (s.columnCount - 1) } := by
  have hrow := h.row_bounds
  have hcolumn := h.column_bounds
  have hmaxRows := h.maxRows_eq
  have hmaxCols := h.maxCols_eq
  unfold advance
  rw [h.formed.active_columns]
  split
  · rename_i hlast
    rw [min_eq_right (by omega), ← hlast]
    split <;> rfl
  · show s.cursor.setPosition (s.cursor.row + 0) (s.cursor.column + 1) = _
    rw [Cursor.setPosition, clamp_self (by omega) (by omega), clamp_self (by omega) (by omega),
      min_eq_left (by omega), Int.add_zero]

theorem advance_activeGrid (s : Screen) (col : Int) : (s.advance col).activeGrid = s.activeGrid := by
  unfold advance
  split_ifs <;> rfl

theorem advance_modes (s : Screen) (col : Int) : (s.advance col).modes = s.modes := by
  unfold advance
  split_ifs <;> rfl

/-- The cell under the cursor takes the character, and the cursor goes on as far as the row does. -/
structure Types (s t : Screen) (ch : Nat) : Prop where
  becomes : ∃ x : Cell, x.char = ch ∧ (s.protectionMode ≠ 2 → x.protectWrite = false) ∧
    s.activeGrid.Becomes t.activeGrid
      (Grid.update s.activeGrid.cell s.cursor.row s.cursor.column x)
  row_eq : t.cursor.row = s.cursor.row
  column_eq : t.cursor.column = min (s.cursor.column + 1) (s.columnCount - 1)
  modes_eq : t.modes = s.modes

theorem writeCell_types (h : s.Geometry) (ch : Nat) :
    s.Types (s.writeCell s.cursor.row s.cursor.column ch) ch := by
  have hin : s.activeGrid.Inside s.cursor.row s.cursor.column :=
    h.formed.inside_iff.2 ⟨h.row_bounds, h.column_bounds⟩
  unfold writeCell
  generalize hwritten : s.setAttributes [] (s.store.value s.currentAttributes)
    { s.activeGrid.cell s.cursor.row s.cursor.column with char := ch } = written
  have hchar : written.1.char = ch := by
    rw [← hwritten, setAttributes_char]
  have hgrid : written.2.activeGrid = s.activeGrid := by
    rw [← hwritten, setAttributes_activeGrid]
  have hmodes : written.2.modes = s.modes := by
    rw [← hwritten, modes_setAttributes]
  have hkeeps : s.Keeps written.2 := by
    rw [← hwritten]
    exact keeps_setAttributes _ _ _ _
  have hframe : (written.2.modifyCell (fun _ => s.protect written.1) s.cursor.row
      s.cursor.column).frame = s.frame := (frame_modifyCell _ _ _ _).trans hkeeps.frame_eq
  have hgeometry := h.of_frame hframe
  obtain ⟨hsize, -, hcursor, -⟩ := frame_eq_iff.1 hframe
  have hadvance := advance_cursor hgeometry
  have hcolumnCount : (written.2.modifyCell (fun _ => s.protect written.1) s.cursor.row
      s.cursor.column).columnCount = s.columnCount := (Grid.size_eq_iff.1 hsize).2.1
  rw [hcolumnCount, hcursor] at hadvance
  refine ⟨⟨s.protect written.1, hchar, ?_, ?_⟩, ?_, ?_, ?_⟩
  · intro hmode
    simp [protect, hmode]
  · rw [advance_activeGrid, modifyCell, activeGrid_setGrid, hgrid]
    exact (Grid.Becomes.refl _).store h.formed.active_full hin _
  · rw [hadvance]
  · rw [hadvance]
  · rw [advance_modes]
    exact hmodes

/-- Without a pending wrap, in a cell that may be written. -/
theorem handleGround_types (h : s.Geometry) (hpending : s.wrapPending = false)
    (hinsert : s.insertMode = false)
    (hwrite : (s.activeGrid.cell s.cursor.row s.cursor.column).protectWrite = false)
    {ch : Nat} (hch : 0x20 ≤ ch) :
    s.Types (s.handleGround ch) (s.charset.applyCharset ch) := by
  have hcell : s.hasCell s.cursor.row s.cursor.column = true :=
    hasCell_iff.2 (h.formed.inside_iff.2 ⟨h.row_bounds, h.column_bounds⟩)
  have hwrap : s.wrapNow = s := by simp [wrapNow, hpending]
  have hroom : s.makeRoom = s := by simp [makeRoom, hinsert]
  have hput : s.putPrintable ch =
      s.writeCell s.cursor.row s.cursor.column (s.charset.applyCharset ch) := by
    simp [putPrintable, hwrap, hcell, hroom, writeChar, hwrite]
  have htypes := writeCell_types h (s.charset.applyCharset ch)
  rw [handleGround_printable h hch, hput]
  exact ⟨htypes.becomes, htypes.row_eq, htypes.column_eq, htypes.modes_eq⟩

/-- A cleared screen with the cursor at home, ready for a text. -/
structure Cleared (s : Screen) : Prop where
  geometry : s.Geometry
  home : s.cursor.row = 0 ∧ s.cursor.column = 0
  blank : ∀ r c, s.activeGrid.Inside r c → (s.activeGrid.cell r c).char = 0x20
  writable : ∀ r c, s.activeGrid.Inside r c → (s.activeGrid.cell r c).protectWrite = false
  unprotecting : s.protectionMode ≠ 2
  wraparound : s.wraparound = true
  settled : s.wrapPending = false
  replacing : s.insertMode = false
  scrollback : s.scrollback = []

/-- What stands at a place when all that does not fit the first row went into its last cell. -/
def overtyped (cols : Nat) (text : List Nat) (r c : Nat) : Nat :=
  if r = 0 then text.getD (if c = cols - 1 then max (text.length - 1) c else c) 0x20 else 0x20

/-- The screen `t` behind a text on the cleared screen `s`. -/
structure Typed (s t : Screen) (text : List Nat) : Prop where
  geometry : t.Geometry
  size_eq : t.activeGrid.size = s.activeGrid.size
  pending : t.wrapPending = false
  modes_eq : t.modes = s.modes
  row_eq : t.cursor.row = 0
  column_eq : t.cursor.column = min (text.length : Int) (s.columnCount - 1)
  writable : ∀ r c, s.activeGrid.Inside r c → (t.activeGrid.cell r c).protectWrite = false
  chars : ∀ r c : Nat, s.activeGrid.Inside r c →
    (t.activeGrid.cell r c).char = overtyped s.columnCount.toNat text r c

theorem Cleared.typed (h : s.Cleared) : s.Typed s [] := by
  have hcolumns := h.geometry.formed.columns_pos
  refine ⟨h.geometry, rfl, h.settled, rfl, h.home.1, ?_, h.writable, fun r c hin => ?_⟩
  · rw [h.home.2, length_nil]
    omega
  · rw [h.blank r c hin]
    simp [overtyped]

theorem overtyped_append {r c : Nat} (hc : c < cols) (ch : Nat) :
    overtyped cols (text ++ [ch]) r c =
      if r = 0 ∧ c = min text.length (cols - 1) then ch else overtyped cols text r c := by
  by_cases hr : r = 0
  · subst hr
    simp only [overtyped, if_true, true_and, length_append, length_singleton, getD_eq_getElem?_getD]
    rcases Nat.lt_trichotomy text.length (cols - 1) with hlt | heq | hgt
    · rw [min_eq_left (by omega)]
      split
      · rw [if_neg (by omega), List.getElem?_eq_none (by simp; omega),
          List.getElem?_eq_none (by omega)]
      · split
        · rename_i hlast
          simp [hlast]
        · rcases Nat.lt_or_gt_of_ne ‹c ≠ text.length› with hbefore | hbehind
          · rw [List.getElem?_append_left hbefore]
          · rw [List.getElem?_eq_none (by simp; omega), List.getElem?_eq_none (by omega)]
    · rw [min_eq_left (by omega), ← heq]
      split
      · rename_i hlast
        simp [hlast]
      · rw [List.getElem?_append_left (by omega)]
    · rw [min_eq_right (by omega)]
      split
      · rw [show max (text.length + 1 - 1) c = text.length by omega]
        simp
      · rw [List.getElem?_append_left (by omega)]
  · simp [overtyped, hr]

theorem Typed.step (hs : s.Cleared) (h : s.Typed t text) {ch : Nat} (hch : 0x20 ≤ ch) :
    s.Typed (t.handleGround ch) (text ++ [s.charset.applyCharset ch]) := by
  have hmodes := h.modes_eq
  simp only [modes, Prod.mk.injEq] at hmodes
  have hinside : ∀ {r c : Int}, t.activeGrid.Inside r c ↔ s.activeGrid.Inside r c := by
    intro r c
    obtain ⟨hrows, hcolumns, -⟩ := Grid.size_eq_iff.1 h.size_eq
    rw [Grid.Inside, Grid.Inside, hrows, hcolumns]
  have hcolumnCount : t.columnCount = s.columnCount := by
    rw [← h.geometry.formed.active_columns, (Grid.size_eq_iff.1 h.size_eq).2.1,
      hs.geometry.formed.active_columns]
  have hcursor : t.activeGrid.Inside t.cursor.row t.cursor.column :=
    h.geometry.formed.inside_iff.2 ⟨h.geometry.row_bounds, h.geometry.column_bounds⟩
  have htypes := handleGround_types h.geometry h.pending (hmodes.1.trans hs.replacing)
    (h.writable _ _ (hinside.1 hcursor)) hch
  obtain ⟨x, hxchar, hxwrite, hbecomes⟩ := htypes.becomes
  rw [hmodes.2.2.1] at hxchar
  have hpending : (t.handleGround ch).wrapPending = false := by
    rfl
  refine ⟨h.geometry.handleGround ch, ?_, hpending, htypes.modes_eq.trans h.modes_eq,
    htypes.row_eq.trans h.row_eq, ?_, fun r c hin => ?_, fun r c hin => ?_⟩
  · rw [← h.size_eq, Grid.size_eq_iff]
    exact ⟨hbecomes.rows_eq, hbecomes.columns_eq, hbecomes.length_eq⟩
  · rw [htypes.column_eq, h.column_eq, length_append, length_singleton]
    omega
  · rw [hbecomes.cell_eq r c (hinside.2 hin), Grid.update]
    split
    · exact hxwrite (by rw [hmodes.2.1]; exact hs.unprotecting)
    · exact h.writable r c hin
  · have hc := hs.geometry.formed.inside_iff.1 hin
    have hplace : ((r : Int) = t.cursor.row ∧ (c : Int) = t.cursor.column) ↔
        r = 0 ∧ c = min text.length (s.columnCount.toNat - 1) := by
      rw [h.row_eq, h.column_eq]
      omega
    rw [hbecomes.cell_eq r c (hinside.2 hin), Grid.update, overtyped_append (by omega)]
    split
    · rename_i hhere
      rw [if_pos (hplace.1 hhere), hxchar]
    · rename_i hhere
      rw [if_neg (mt hplace.2 hhere)]
      exact h.chars r c hin

theorem Cleared.types (h : s.Cleared) (htext : ∀ ch ∈ text, 0x20 ≤ ch) :
    s.Typed (text.foldl handleGround s) (text.map s.charset.applyCharset) := by
  induction text using List.reverseRecOn with
  | nil => exact h.typed
  | append_singleton text ch ih =>
    rw [foldl_append, map_append]
    exact (ih fun c hc => htext c (mem_append_left _ hc)).step h (htext ch (by simp))

/-- How many lines of a text cut at the right edge have left a screen of `rows` rows. -/
def linesOut (rows cols : Nat) (text : List Nat) : Nat :=
  (text.length + cols - 1) / cols - rows

def textLine (cols : Nat) (text : List Nat) (k : Nat) : List Nat :=
  (List.range cols).map fun c => text.getD (k * cols + c) 0x20

/-- The rows show the last lines of the text, and the scrollback keeps those before, as many as it
can. -/
def HoldsText (s : Screen) (text : List Nat) : Prop :=
  let rows := s.rowCount.toNat
  let cols := s.columnCount.toNat
  let out := linesOut rows cols text
  s.scrollback.map (List.map Cell.char) =
      ((List.range out).map (textLine cols text)).drop (out - maxScrollbackLines) ∧
    ∀ r c : Nat, r < rows → c < cols →
      (s.activeGrid.cell r c).char = text.getD ((out + r) * cols + c) 0x20

/-- The text ends in the first row, or the last cell of that row and all behind it is blank. -/
def FitsRow (rows cols : Nat) (text : List Nat) : Prop :=
  text.length ≤ cols ∨ text.length ≤ rows * cols ∧ ∀ ch ∈ text.drop (cols - 1), ch = 0x20

theorem linesOut_eq_zero (hcols : 0 < cols) (text : List Nat) :
    linesOut rows cols text = 0 ↔ text.length ≤ rows * cols := by
  rw [linesOut, Nat.sub_eq_zero_iff_le, Nat.div_le_iff_le_mul_add_pred hcols, Nat.mul_comm]
  omega

theorem getD_of_drop (h : ∀ ch ∈ text.drop (cols - 1), ch = 0x20) {i : Nat} (hi : cols - 1 ≤ i) :
    text.getD i 0x20 = 0x20 := by
  rw [getD_eq_getElem?_getD]
  cases hch : text[i]? with
  | none => rfl
  | some ch =>
    refine h ch (mem_iff_getElem?.2 ⟨i - (cols - 1), ?_⟩)
    rw [List.getElem?_drop, show cols - 1 + (i - (cols - 1)) = i by omega, hch]

/-- Text written over the last cell is text cut into lines only where the difference is blank. -/
theorem overtyped_iff (hrows : 0 < rows) (hcols : 0 < cols) (text : List Nat) :
    (linesOut rows cols text = 0 ∧ ∀ r c, r < rows → c < cols →
      overtyped cols text r c = text.getD (r * cols + c) 0x20) ↔ FitsRow rows cols text := by
  rw [linesOut_eq_zero hcols]
  constructor
  · rintro ⟨hlength, hcells⟩
    by_cases hfits : text.length ≤ cols
    · exact .inl hfits
    · refine .inr ⟨hlength, fun ch hmem => ?_⟩
      obtain ⟨i, hi⟩ := mem_iff_getElem?.1 hmem
      rw [List.getElem?_drop] at hi
      have hlt : cols - 1 + i < text.length := (List.getElem?_eq_some_iff.1 hi).1
      -- Behind the first row nothing was written.
      have hbehind : ∀ j, cols ≤ j → j < text.length → text.getD j 0x20 = 0x20 := by
        intro j hge hj
        have hrow : j / cols < rows := Nat.div_lt_of_lt_mul (by rw [Nat.mul_comm]; omega)
        have hpos : j / cols ≠ 0 := (Nat.div_pos hge hcols).ne'
        have hcell := hcells (j / cols) (j % cols) hrow (Nat.mod_lt _ hcols)
        rw [overtyped, if_neg hpos, Nat.div_add_mod'] at hcell
        exact hcell.symm
      have hvalue : text.getD (cols - 1 + i) 0x20 = ch := by
        rw [getD_eq_getElem?_getD, hi]
        rfl
      rw [← hvalue]
      rcases Nat.eq_zero_or_pos i with rfl | hpos
      · have hcell := hcells 0 (cols - 1) hrows (by omega)
        rw [overtyped, if_pos rfl, if_pos rfl, Nat.zero_mul, Nat.zero_add,
          hbehind _ (by omega) (by omega)] at hcell
        rw [Nat.add_zero, ← hcell]
      · exact hbehind _ (by omega) hlt
  · rintro (hfits | ⟨hlength, hblank⟩)
    · have hle : cols ≤ rows * cols := Nat.le_mul_of_pos_left cols hrows
      refine ⟨by omega, fun r c hr hc => ?_⟩
      cases r with
      | zero =>
        rw [overtyped, if_pos rfl, Nat.zero_mul, Nat.zero_add]
        split
        · rw [show max (text.length - 1) c = c by omega]
        · rfl
      | succ r =>
        rw [overtyped, if_neg (by omega), getD_eq_getElem?_getD, List.getElem?_eq_none]
        · rfl
        · rw [Nat.succ_mul]
          omega
    · refine ⟨hlength, fun r c hr hc => ?_⟩
      cases r with
      | zero =>
        rw [overtyped, if_pos rfl, Nat.zero_mul, Nat.zero_add]
        split
        · rw [getD_of_drop hblank (by omega), getD_of_drop hblank (by omega)]
        · rfl
      | succ r =>
        rw [overtyped, if_neg (by omega), getD_of_drop hblank]
        rw [Nat.succ_mul]
        omega

theorem FitsRow.map_iff (charset : CharsetTranslator) :
    FitsRow rows cols (text.map charset.applyCharset) ↔ FitsRow rows cols text := by
  simp [FitsRow, ← map_drop, charset.applyCharset_space]

theorem Typed.holds_iff (hs : s.Cleared) (h : s.Typed t text) :
    t.HoldsText text ↔ FitsRow s.rowCount.toNat s.columnCount.toNat text := by
  have hrows := hs.geometry.formed.rows_pos
  have hcolumns := hs.geometry.formed.columns_pos
  have hmodes := h.modes_eq
  simp only [modes, Prod.mk.injEq] at hmodes
  have hrowCount : t.rowCount = s.rowCount := by
    rw [← h.geometry.formed.active_rows, (Grid.size_eq_iff.1 h.size_eq).1,
      hs.geometry.formed.active_rows]
  have hcolumnCount : t.columnCount = s.columnCount := by
    rw [← h.geometry.formed.active_columns, (Grid.size_eq_iff.1 h.size_eq).2.1,
      hs.geometry.formed.active_columns]
  rw [← overtyped_iff (by omega) (by omega)]
  simp only [HoldsText, hrowCount, hcolumnCount, hmodes.2.2.2, hs.scrollback, map_nil]
  have hcells : ∀ r c : Nat, r < s.rowCount.toNat → c < s.columnCount.toNat →
      (t.activeGrid.cell r c).char = overtyped s.columnCount.toNat text r c :=
    fun r c hr hc => h.chars r c (hs.geometry.formed.inside_iff.2 (by omega))
  -- The scrollback is empty, so no line may have left the screen.
  have hout : [] = ((List.range (linesOut s.rowCount.toNat s.columnCount.toNat text)).map
      (textLine s.columnCount.toNat text)).drop
        (linesOut s.rowCount.toNat s.columnCount.toNat text - maxScrollbackLines) ↔
      linesOut s.rowCount.toNat s.columnCount.toNat text = 0 := by
    rw [eq_comm, drop_eq_nil_iff, length_map, length_range, maxScrollbackLines]
    omega
  rw [hout]
  refine and_congr_right fun hzero => ?_
  simp only [hzero, Nat.zero_add]
  exact forall₄_congr fun r c hr hc => by rw [hcells r c hr hc]

theorem cell_fresh {g : Grid} (h : ∀ x ∈ g.cells, x = {}) (r c : Int) : g.cell r c = {} := by
  rw [Grid.cell, getD_eq_getElem?_getD]
  cases hx : g.cells[(g.place r c).toNat]? with
  | none => rfl
  | some x => exact h x (mem_of_getElem? hx)

theorem resize_fresh {g : Grid} (h : ∀ x ∈ g.cells, x = {}) (rows cols : Int) :
    ∀ x ∈ (g.resize rows cols).cells, x = {} := by
  have hreplicate : ∀ x ∈ List.replicate (rows * cols).toNat ({} : Cell), x = {} :=
    fun x hx => eq_of_mem_replicate hx
  unfold Grid.resize
  split
  · exact h
  · split
    · exact hreplicate
    · refine CountedLoop.upTo_keeps (P := fun new : Grid => ∀ x ∈ new.cells, x = {}) hreplicate
        fun r new _ _ hnew => CountedLoop.upTo_keeps (P := fun new : Grid => ∀ x ∈ new.cells, x = {})
          hnew fun c new _ _ hnew x hx => ?_
      rcases mem_or_eq_of_mem_set hx with hold | heq
      · exact hnew x hold
      · rw [heq, cell_fresh h]

theorem Cleared.make {rows cols : Int} (hrows : 0 < rows) (hcols : 0 < cols) :
    (Screen.make rows cols).Cleared := by
  have hgeometry := (Geometry.make hrows hcols).1
  have hcells : ∀ x ∈ (Screen.make rows cols).primaryGrid.cells, x = {} := by
    rw [show (Screen.make rows cols).primaryGrid = (Grid.make rows cols).resize rows cols from
      (resize_sizes hrows hcols).1]
    exact resize_fresh (resize_fresh (by simp) _ _) _ _
  have hactive : (Screen.make rows cols).activeGrid = (Screen.make rows cols).primaryGrid := by
    unfold activeGrid Screen.make Screen.resize
    dsimp only
    split <;> rfl
  have hcursor : (Screen.make rows cols).cursor =
      Cursor.updateDimensions { maxRows := rows, maxCols := cols } rows cols :=
    resize_cursor _ rows cols
  have hsettings : (Screen.make rows cols).protectionMode = 0 ∧
      (Screen.make rows cols).wraparound = true ∧ (Screen.make rows cols).wrapPending = false ∧
      (Screen.make rows cols).insertMode = false ∧ (Screen.make rows cols).scrollback = [] := by
    unfold Screen.make Screen.resize
    dsimp only
    split <;> exact ⟨rfl, rfl, rfl, rfl, rfl⟩
  obtain ⟨hmode, hwrap, hpending, hinsert, hscrollback⟩ := hsettings
  refine ⟨hgeometry, ?_, fun r c _ => ?_, fun r c _ => ?_, ?_, hwrap, hpending, hinsert,
    hscrollback⟩
  · rw [hcursor]
    have hrow : clamp 0 0 (rows - 1) = 0 := clamp_self le_rfl (by omega)
    have hcol : clamp 0 0 (cols - 1) = 0 := clamp_self le_rfl (by omega)
    exact ⟨hrow, hcol⟩
  · rw [hactive, cell_fresh hcells]
  · rw [hactive, cell_fresh hcells]
  · rw [hmode]
    decide

end Screen

namespace Terminal

/-- A text through the parser is cut into lines exactly where there is no difference to see. -/
theorem autowrap_iff {t : Terminal} (hdecoder : t.decoder = {}) (hground : t.parser.state = .ground)
    (hcleared : t.screen.Cleared) {text : List Nat}
    (htext : ∀ ch ∈ text, 0x20 ≤ ch ∧ Scalar ch) :
    (t.parseInput (text.flatMap encode)).screen.HoldsText
        (text.map t.screen.charset.applyCharset) ↔
      Screen.FitsRow t.screen.rowCount.toNat t.screen.columnCount.toNat text := by
  have hprintable : ∀ ch ∈ text, Scalar ch ∧ ch ≠ 0x1B := fun ch hch =>
    ⟨(htext ch hch).2, by have := (htext ch hch).1; omega⟩
  rw [parseInput_text hdecoder hground hprintable, ← Screen.FitsRow.map_iff t.screen.charset]
  exact (hcleared.types fun ch hch => (htext ch hch).1).holds_iff hcleared

theorem autowrap_short :
    ((make 1 2).parseInput ([0x61].flatMap encode)).screen.HoldsText
        ([0x61].map (make 1 2).screen.charset.applyCharset) ↔
      Screen.FitsRow (make 1 2).screen.rowCount.toNat (make 1 2).screen.columnCount.toNat [0x61] :=
  autowrap_iff rfl rfl (Screen.Cleared.make (by decide) (by decide)) (by decide)

/-- Two letters on a screen of one column: the second one stands on the first. -/
theorem text_overtyped :
    ¬ ∀ (t : Terminal) (text : List Nat), t.decoder = {} → t.parser.state = .ground →
      t.screen.Cleared → (∀ ch ∈ text, 0x20 ≤ ch ∧ Scalar ch) →
      (t.parseInput (text.flatMap encode)).screen.HoldsText
        (text.map t.screen.charset.applyCharset) := by
  intro h
  have hholds := h (make 2 1) [0x61, 0x62] rfl rfl (Screen.Cleared.make (by decide) (by decide))
    (by decide)
  have hfirst := hholds.2 0 0 (by decide) (by decide)
  revert hfirst
  decide

end Terminal

end JobAnsi
