import OddBuilder.Ansi.Drawing

/-!
# The geometry of the screen

Sizes, cursor and margins, and the operations that keep them. `Keeps` also says
that an operation stays inside the grid and the integers where all was so before.
-/

namespace JobAnsi

open CountedLoop

/-- What the geometry speaks about. -/
structure Frame where
  primarySize : Int × Int × Nat
  altSize : Int × Int × Nat
  cursor : Cursor
  scrollTop : Int
  scrollBottom : Int

namespace Screen

def frame (s : Screen) : Frame :=
  { primarySize := s.primaryGrid.size
    altSize := s.altGrid.size
    cursor := s.cursor
    scrollTop := s.scrollTop
    scrollBottom := s.scrollBottom }

/-- Both grids are of one size and have as many cells as it says. -/
structure Formed (s : Screen) : Prop where
  primary_full : s.primaryGrid.Full
  alt_size : s.altGrid.size = s.primaryGrid.size

structure Geometry (s : Screen) : Prop where
  primary_full : s.primaryGrid.Full
  alt_size : s.altGrid.size = s.primaryGrid.size
  maxRows_eq : s.cursor.maxRows = s.rowCount
  maxCols_eq : s.cursor.maxCols = s.columnCount
  row_bounds : 0 ≤ s.cursor.row ∧ s.cursor.row < s.rowCount
  column_bounds : 0 ≤ s.cursor.column ∧ s.cursor.column < s.columnCount
  top_nonneg : 0 ≤ s.scrollTop
  top_lt_bottom : s.scrollTop < s.scrollBottom
  bottom_le : s.scrollBottom ≤ s.rowCount

/-- Nothing went out of range so far. -/
def Sound (s : Screen) : Prop :=
  s.safe = true ∧ s.primaryGrid.safe = true ∧ s.altGrid.safe = true

variable {s t u : Screen}

theorem frame_eq_iff : t.frame = s.frame ↔
    t.primaryGrid.size = s.primaryGrid.size ∧ t.altGrid.size = s.altGrid.size ∧
      t.cursor = s.cursor ∧ t.scrollTop = s.scrollTop ∧ t.scrollBottom = s.scrollBottom := by
  simp [frame]

theorem Geometry.of_frame (h : s.Geometry) (heq : t.frame = s.frame) : t.Geometry := by
  obtain ⟨hprimary, halt, hcursor, htop, hbottom⟩ := frame_eq_iff.1 heq
  obtain ⟨hrows, hcolumns, hlength⟩ := Grid.size_eq_iff.1 hprimary
  have hrowCount : t.rowCount = s.rowCount := hrows
  have hcolumnCount : t.columnCount = s.columnCount := hcolumns
  constructor
  · exact h.primary_full.of_size hprimary
  · rw [halt, hprimary, h.alt_size]
  · rw [hcursor, hrowCount, h.maxRows_eq]
  · rw [hcursor, hcolumnCount, h.maxCols_eq]
  · rw [hcursor, hrowCount]
    exact h.row_bounds
  · rw [hcursor, hcolumnCount]
    exact h.column_bounds
  · rw [htop]
    exact h.top_nonneg
  · rw [htop, hbottom]
    exact h.top_lt_bottom
  · rw [hbottom, hrowCount]
    exact h.bottom_le

theorem Geometry.formed (h : s.Geometry) : s.Formed := ⟨h.primary_full, h.alt_size⟩

theorem Formed.of_frame (h : s.Formed) (heq : t.frame = s.frame) : t.Formed := by
  obtain ⟨hprimary, halt, -⟩ := frame_eq_iff.1 heq
  exact ⟨h.primary_full.of_size hprimary, by rw [halt, hprimary, h.alt_size]⟩

theorem Formed.alt_full (h : s.Formed) : s.altGrid.Full := h.primary_full.of_size h.alt_size

theorem Formed.active_size (h : s.Formed) : s.activeGrid.size = s.primaryGrid.size := by
  unfold activeGrid
  split
  · exact h.alt_size
  · rfl

theorem Formed.active_full (h : s.Formed) : s.activeGrid.Full :=
  h.primary_full.of_size h.active_size

theorem Formed.active_rows (h : s.Formed) : s.activeGrid.rows = s.rowCount :=
  (Grid.size_eq_iff.1 h.active_size).1

theorem Formed.active_columns (h : s.Formed) : s.activeGrid.columns = s.columnCount :=
  (Grid.size_eq_iff.1 h.active_size).2.1

theorem Formed.rows_pos (h : s.Formed) : 0 < s.rowCount := h.primary_full.rows_pos

theorem Formed.columns_pos (h : s.Formed) : 0 < s.columnCount := h.primary_full.columns_pos

theorem Formed.inside_iff (h : s.Formed) {r c : Int} : s.activeGrid.Inside r c ↔
    (0 ≤ r ∧ r < s.rowCount) ∧ 0 ≤ c ∧ c < s.columnCount := by
  rw [Grid.Inside, h.active_rows, h.active_columns]

theorem Formed.inside_frame (h : s.Formed) (heq : t.frame = s.frame) {r c : Int} :
    t.activeGrid.Inside r c ↔ s.activeGrid.Inside r c := by
  obtain ⟨hrows, hcolumns, -⟩ := Grid.size_eq_iff.1 (frame_eq_iff.1 heq).1
  rw [(h.of_frame heq).inside_iff, h.inside_iff, rowCount, columnCount, hrows, hcolumns]
  rfl

theorem Sound.active (h : s.Sound) : s.activeGrid.safe = true := by
  unfold activeGrid
  split
  · exact h.2.2
  · exact h.2.1

structure Keeps (s t : Screen) : Prop where
  frame_eq : t.frame = s.frame
  sound : s.Sound → t.Sound

theorem Keeps.refl (s : Screen) : s.Keeps s := ⟨rfl, id⟩

theorem Keeps.trans (h : s.Keeps t) (h' : t.Keeps u) : s.Keeps u :=
  ⟨h'.frame_eq.trans h.frame_eq, fun hs => h'.sound (h.sound hs)⟩

theorem Keeps.geometry (h : s.Keeps t) (hs : s.Geometry) : t.Geometry := hs.of_frame h.frame_eq

theorem Keeps.formed (h : s.Keeps t) (hs : s.Formed) : t.Formed := hs.of_frame h.frame_eq

/-- A loop keeps what its turns keep. -/
theorem Keeps.upTo {body : Int → Screen → Screen} {first bound : Int} (hs : s.Formed)
    (hturn : ∀ (i : Int) (t : Screen), first ≤ i → i < bound → t.frame = s.frame → t.Formed →
      t.Keeps (body i t)) : s.Keeps (upTo first bound body s) :=
  upTo_keeps (P := fun t => s.Keeps t) (Keeps.refl s) fun i t hge hlt ht =>
    ht.trans (hturn i t hge hlt ht.frame_eq (ht.formed hs))

theorem Keeps.downTo {body : Int → Screen → Screen} {first last : Int} (hs : s.Formed)
    (hturn : ∀ (i : Int) (t : Screen), last ≤ i → i ≤ first → t.frame = s.frame → t.Formed →
      t.Keeps (body i t)) : s.Keeps (downTo first last body s) :=
  downTo_keeps (P := fun t => s.Keeps t) (Keeps.refl s) fun i t hge hlt ht =>
    ht.trans (hturn i t hge hlt ht.frame_eq (ht.formed hs))

theorem frame_setGrid {g : Grid} (h : g.size = s.activeGrid.size) :
    (s.setGrid g).frame = s.frame := by
  rw [frame_eq_iff]
  unfold activeGrid at h
  simp only [setGrid]
  split <;> simp_all

theorem keeps_setGrid {g : Grid} (hsize : g.size = s.activeGrid.size)
    (hsafe : s.Sound → g.safe = true) : s.Keeps (s.setGrid g) := by
  refine ⟨frame_setGrid hsize, fun hs => ?_⟩
  simp only [setGrid]
  refine ⟨hs.1, ?_, ?_⟩
  · split
    · exact hs.2.1
    · exact hsafe hs
  · split
    · exact hsafe hs
    · exact hs.2.2

theorem keeps_computes {ns : List Int} (h : ∀ n ∈ ns, inInt n = true) :
    s.Keeps (s.computes ns) := by
  refine ⟨rfl, fun hs => ⟨?_, hs.2⟩⟩
  rw [computes, Bool.and_eq_true, List.all_eq_true]
  exact ⟨hs.1, h⟩

@[simp] theorem frame_modifyCell (f : Cell → Cell) (r c : Int) (s : Screen) :
    (s.modifyCell f r c).frame = s.frame :=
  frame_setGrid (Grid.size_store _ _ _ _)

theorem keeps_modifyCell (hs : s.Formed) {r c : Int} (hin : s.activeGrid.Inside r c)
    (f : Cell → Cell) : s.Keeps (s.modifyCell f r c) := by
  refine keeps_setGrid (Grid.size_store _ _ _ _) fun hsound => ?_
  simp [Grid.store, hs.active_full.reaches hin, hsound.active]

theorem keeps_modifyAt (hs : s.Formed) (f : Cell → Cell) (r c : Int) :
    s.Keeps (s.modifyAt f r c) := by
  unfold modifyAt
  split
  · exact keeps_modifyCell hs (hasCell_iff.1 ‹_›) f
  · exact Keeps.refl s

theorem keeps_copyAt (hs : s.Formed) (row col toRow toCol : Int) :
    s.Keeps (s.copyAt row col toRow toCol) := by
  unfold copyAt
  split
  · exact keeps_modifyAt hs _ _ _
  · exact Keeps.refl s

@[simp] theorem frame_derefAt (f : Cell → Cell) (r c : Int) (s : Screen) :
    (s.derefAt f r c).frame = s.frame := by
  unfold derefAt modifyAt
  split
  · exact frame_modifyCell f r c s
  · rfl

theorem keeps_derefAt (hs : s.Formed) {r c : Int} (hin : s.activeGrid.Inside r c)
    (f : Cell → Cell) : s.Keeps (s.derefAt f r c) := by
  rw [derefAt, hasCell_iff.2 hin]
  simp only [Bool.and_true]
  exact keeps_modifyAt hs f r c

@[simp] theorem frame_copyDeref (s : Screen) (row src dst : Int) :
    (s.copyDeref row src dst).frame = s.frame :=
  frame_derefAt _ row dst s

theorem keeps_copyDeref (hs : s.Formed) {row src dst : Int}
    (hsrc : s.activeGrid.Inside row src) (hdst : s.activeGrid.Inside row dst) :
    s.Keeps (s.copyDeref row src dst) := by
  rw [copyDeref, hasCell_iff.2 hsrc]
  simp only [Bool.and_true]
  exact keeps_derefAt hs hdst _

/-- Interning and the attributes of a cell change the store only. -/
theorem keeps_intern (s : Screen) (held : List Ref) (attr : Attributes) :
    s.Keeps (s.intern held attr).2 := ⟨rfl, id⟩

theorem keeps_setAttributes (s : Screen) (held : List Ref) (attr : Attributes) (cell : Cell) :
    s.Keeps (s.setAttributes held attr cell).2 := by
  unfold setAttributes
  split
  · exact Keeps.refl s
  · exact keeps_intern s held attr

theorem setAttributes_activeGrid (s : Screen) (held : List Ref) (attr : Attributes) (cell : Cell) :
    (s.setAttributes held attr cell).2.activeGrid = s.activeGrid := by
  unfold setAttributes
  split <;> rfl

theorem keeps_repeatCell (hs : s.Formed) (row col : Int) : s.Keeps (s.repeatCell row col) := by
  unfold repeatCell
  split
  · rename_i hcell
    have hkeeps := keeps_setAttributes s [] {} { s.activeGrid.cell row col with char := 0x20 }
    refine hkeeps.trans (keeps_modifyCell (hkeeps.formed hs) ?_ _)
    rw [setAttributes_activeGrid]
    simp only [Bool.and_eq_true] at hcell
    exact hasCell_iff.1 hcell.1
  · exact Keeps.refl s

theorem keeps_reverseCell (hs : s.Formed) (row col : Int) : s.Keeps (s.reverseCell row col) := by
  unfold reverseCell
  split
  · rename_i hcell
    refine (keeps_intern s [] _).trans ((keeps_setAttributes _ _ _ _).trans
      (keeps_modifyCell ?_ ?_ _))
    · exact (keeps_setAttributes _ _ _ _).formed ((keeps_intern s [] _).formed hs)
    · rw [setAttributes_activeGrid]
      exact hasCell_iff.1 hcell
  · exact Keeps.refl s

theorem keeps_setLine (hs : s.Formed) (f : Cell → Cell) (row : Int) :
    s.Keeps (s.setLine f row) := by
  unfold setLine
  split
  · exact Keeps.refl s
  · refine Keeps.upTo hs fun c t hge hlt hframe ht => keeps_modifyCell ht ?_ _
    rw [hs.inside_frame hframe]
    exact ⟨⟨by omega, by omega⟩, hge, hlt⟩

theorem keeps_eraseToEnd (hs : s.Formed) (row col : Int) : s.Keeps (s.eraseToEnd row col) :=
  Keeps.upTo hs fun _ _ _ _ _ ht => Keeps.upTo ht fun _ _ _ _ _ hu => keeps_modifyAt hu _ _ _

theorem keeps_eraseToStart (hs : s.Formed) (row col : Int) : s.Keeps (s.eraseToStart row col) :=
  Keeps.upTo hs fun _ _ _ _ _ ht => Keeps.upTo ht fun _ _ _ _ _ hu => keeps_modifyAt hu _ _ _

theorem keeps_eraseRow (hs : s.Formed) (f : Cell → Cell) (row first bound : Int) :
    s.Keeps (upTo first bound (fun c s => s.modifyAt f row c) s) :=
  Keeps.upTo hs fun _ _ _ _ _ ht => keeps_modifyAt ht _ _ _

theorem keeps_eraseChars (hs : s.Formed) (count : Int) : s.Keeps (s.eraseChars count) :=
  Keeps.upTo hs fun _ _ _ _ _ ht => keeps_modifyAt ht _ _ _

theorem keeps_eachCell (hs : s.Formed) (area : Rectangle) {f : Int → Int → Screen → Screen}
    (hf : ∀ r c t, Formed t → t.Keeps (f r c t)) : s.Keeps (s.eachCell area f) :=
  Keeps.upTo hs fun _ _ _ _ _ ht => Keeps.upTo ht fun _ _ _ _ _ hu => hf _ _ _ hu

theorem keeps_eraseArea (hs : s.Formed) (mode : Int) : s.Keeps (s.eraseArea mode) := by
  have hloops : ∀ (first bound : Int) (low high : Int → Int), s.Keeps (upTo first bound
      (fun r s => upTo (low r) (high r) (fun c s => s.modifyAt resetCell r c) s) s) :=
    fun _ _ _ _ => Keeps.upTo hs fun _ _ _ _ _ ht =>
      Keeps.upTo ht fun _ _ _ _ _ hu => keeps_modifyAt hu _ _ _
  unfold eraseArea
  split
  · exact hloops _ _ _ _
  · exact hloops _ _ _ _
  · exact hloops _ _ _ _
  · exact Keeps.refl s

theorem keeps_eraseField (hs : s.Formed) (row col mode : Int) :
    s.Keeps (s.eraseField row col mode) := by
  unfold eraseField
  split
  · exact Keeps.refl s
  · have hloop : ∀ first bound : Int, 0 ≤ first → bound ≤ s.activeGrid.columns →
        s.Keeps (upTo first bound (fun c s => s.derefAt resetCell row c) s) := by
      intro first bound hfirst hbound
      refine Keeps.upTo hs fun c t hge hlt hframe ht => keeps_derefAt ht ?_ _
      rw [hs.inside_frame hframe]
      exact ⟨⟨by omega, by omega⟩, by omega, by omega⟩
    split
    · exact hloop _ _ (by omega) le_rfl
    · exact hloop _ _ le_rfl (by omega)
    · exact hloop _ _ le_rfl le_rfl
    · exact Keeps.refl s

end Screen

end JobAnsi
