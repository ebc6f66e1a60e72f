import OddBuilder.Library.CountedLoop
import OddBuilder.Ansi.Attributes
import Mathlib.Tactic.Linarith

/-!
# Cells and grids

A grid keeps its rows one after the other in one vector. The flag `safe` is not
in the source: it is lost when the code reads or writes outside the vector, or
when a signed computation leaves the range of an `int`.
-/

namespace JobAnsi

open CountedLoop

structure Cell where
  attr : Option Ref := none
  char : Nat := 0x20
  lineWidth : Nat := 1
  lineHeight : Nat := 1
  isTopHalf : Bool := false
  protectErase : Bool := false
  protectWrite : Bool := false
  deriving DecidableEq, Repr

namespace Cell

/-- `Cell::blank()` -/
def blank : Cell := { attr := some defaultAttributes }

def reset (cell : Cell) : Cell :=
  { cell with
    char := 0x20, attr := some defaultAttributes, lineWidth := 1, lineHeight := 1,
    isTopHalf := false, protectErase := false, protectWrite := false }

@[simp] theorem reset_eq (cell : Cell) : cell.reset = blank := rfl

end Cell

/-- The range of a signed 32-bit integer. -/
def inInt (n : Int) : Bool := -2147483648 ≤ n ∧ n ≤ 2147483647

@[simp] theorem inInt_iff {n : Int} : inInt n = true ↔ -2147483648 ≤ n ∧ n ≤ 2147483647 := by
  simp [inInt]

structure Grid where
  rows : Int
  columns : Int
  cells : List Cell
  safe : Bool

namespace Grid

variable {r c row rows col : Int}

/-- The index of a cell in the vector. -/
def place (g : Grid) (row col : Int) : Int := row * g.columns + col

def cell (g : Grid) (row col : Int) : Cell := g.cells.getD (g.place row col).toNat {}

/-- `m_cells[row * m_columns + col]` is an element of the vector. -/
def reaches (g : Grid) (row col : Int) : Bool :=
  0 ≤ g.place row col ∧ g.place row col < g.cells.length

def checks (g : Grid) (b : Bool) : Grid := { g with safe := g.safe && b }

def store (g : Grid) (row col : Int) (x : Cell) : Grid :=
  { g with
    cells := g.cells.set (g.place row col).toNat x
    safe := g.safe && g.reaches row col }

/-- An assignment from one cell of the grid to another. -/
def copyCell (g : Grid) (row col toRow toCol : Int) : Grid :=
  (g.checks (g.reaches row col)).store toRow toCol (g.cell row col)

/-- `std::move` of a row to a row. -/
def moveLine (g : Grid) (src dst : Int) : Grid :=
  upTo 0 g.columns (fun c g => g.copyCell src c dst c) g

/-- `std::fill` of a row. -/
def fillLine (fill : Cell) (row : Int) (g : Grid) : Grid :=
  upTo 0 g.columns (fun c g => g.store row c fill) g

/-- The cells of a row span. -/
def line (g : Grid) (row : Int) : List Cell :=
  (List.range g.columns.toNat).map fun c => g.cell row c

/-- The row span lies in the vector. -/
def reachesLine (g : Grid) (row : Int) : Bool :=
  0 ≤ g.place row 0 ∧ g.place row g.columns ≤ g.cells.length

def resize (g : Grid) (newRows newCols : Int) : Grid :=
  if newRows ≤ 0 ∨ newCols ≤ 0 then g
  else
    let fresh : Grid :=
      { rows := newRows
        columns := newCols
        cells := List.replicate (newRows * newCols).toNat {}
        safe := g.safe && inInt (newRows * newCols) }
    if g.cells = [] then fresh
    else
      upTo 0 (min g.rows newRows) (fun r new =>
        upTo 0 (min g.columns newCols) (fun c new =>
          (new.checks (g.reaches r c)).store r c (g.cell r c)) new) fresh

/-- `Grid(rows, cols)` -/
def make (rows cols : Int) : Grid :=
  ({ rows := 24, columns := 80, cells := [], safe := true } : Grid).resize (max 1 rows) (max 1 cols)

def effectiveLimit (g : Grid) (limitRow : Int) : Int :=
  if limitRow < 0 then g.rows else min limitRow g.rows

def insertLines (g : Grid) (startRow count : Int) (fill : Cell) (limitRow : Int) : Grid :=
  let limit := g.effectiveLimit limitRow
  if startRow < 0 ∨ limit ≤ startRow ∨ count ≤ 0 then g
  else
    let rowsToMove := limit - startRow - count
    let g := g.checks (inInt rowsToMove)
    let g := if 0 < rowsToMove then
        downTo (limit - 1) (startRow + count) (fun r g => g.moveLine (r - count) r) g
      else g
    let g := g.checks (inInt (startRow + count))
    upTo startRow (min limit (startRow + count)) (fillLine fill) g

def deleteLines (g : Grid) (startRow count : Int) (fill : Cell) (limitRow : Int) : Grid :=
  let limit := g.effectiveLimit limitRow
  if startRow < 0 ∨ limit ≤ startRow ∨ count ≤ 0 then g
  else
    let g := g.checks (inInt (startRow + count))
    let rowsToMove := limit - (startRow + count)
    let g := g.checks (inInt rowsToMove)
    let g := if 0 < rowsToMove then
        upTo startRow (startRow + rowsToMove) (fun r g => g.moveLine (r + count) r) g
      else g
    upTo (max startRow (limit - count)) limit (fillLine fill) g

@[simp] theorem checks_true (g : Grid) : g.checks true = g := by
  simp [checks]

/-- A cell of the screen. -/
def Inside (g : Grid) (r c : Int) : Prop := (0 ≤ r ∧ r < g.rows) ∧ 0 ≤ c ∧ c < g.columns

/-- As many cells as rows and columns say. -/
structure Full (g : Grid) : Prop where
  rows_pos : 0 < g.rows
  columns_pos : 0 < g.columns
  length_eq : (g.cells.length : Int) = g.rows * g.columns

theorem place_bounds {columns : Int} (hr : 0 ≤ r ∧ r < rows) (hc : 0 ≤ c ∧ c < columns) :
    0 ≤ r * columns + c ∧ r * columns + c < rows * columns := by
  constructor
  · have := Int.mul_nonneg hr.1 (show 0 ≤ columns by omega)
    omega
  · have hstep : (r + 1) * columns ≤ rows * columns :=
      Int.mul_le_mul_of_nonneg_right (by omega) (by omega)
    rw [Int.add_mul] at hstep
    omega

theorem place_inj {columns r' c' : Int} (hc : 0 ≤ c ∧ c < columns) (hc' : 0 ≤ c' ∧ c' < columns)
    (h : r * columns + c = r' * columns + c') : r = r' ∧ c = c' := by
  have hdiv : ∀ r c : Int, 0 ≤ c → c < columns → (r * columns + c) / columns = r := by
    intro r c hnonneg hlt
    rw [Int.add_comm, Int.add_mul_ediv_right _ _ (by omega), Int.ediv_eq_zero_of_lt hnonneg hlt]
    omega
  have hrow : r = r' := by rw [← hdiv r c hc.1 hc.2, h, hdiv r' c' hc'.1 hc'.2]
  subst hrow
  exact ⟨rfl, by omega⟩

theorem Full.reaches {g : Grid} (hg : g.Full) (hin : g.Inside r c) : g.reaches r c = true := by
  have hbounds := place_bounds hin.1 hin.2
  simp only [Grid.reaches, hg.length_eq, decide_eq_true_eq]
  exact hbounds

/-- `g'` has the size of `g` and shows `f`; no access went outside in between. -/
structure Becomes (g g' : Grid) (f : Int → Int → Cell) : Prop where
  rows_eq : g'.rows = g.rows
  columns_eq : g'.columns = g.columns
  length_eq : g'.cells.length = g.cells.length
  safe_eq : g'.safe = g.safe
  cell_eq : ∀ r c, g.Inside r c → g'.cell r c = f r c

theorem Becomes.refl (g : Grid) : g.Becomes g g.cell := ⟨rfl, rfl, rfl, rfl, fun _ _ _ => rfl⟩

variable {g g' : Grid} {f : Int → Int → Cell}

theorem Becomes.congr {f' : Int → Int → Cell} (h : g.Becomes g' f)
    (heq : ∀ r c, g.Inside r c → f r c = f' r c) : g.Becomes g' f' :=
  ⟨h.rows_eq, h.columns_eq, h.length_eq, h.safe_eq, fun r c hin =>
    (h.cell_eq r c hin).trans (heq r c hin)⟩

theorem Becomes.inside (h : g.Becomes g' f) : g'.Inside r c ↔ g.Inside r c := by
  simp [Inside, h.rows_eq, h.columns_eq]

theorem Becomes.full (h : g.Becomes g' f) (hg : g.Full) : g'.Full :=
  ⟨h.rows_eq ▸ hg.rows_pos, h.columns_eq ▸ hg.columns_pos, by
    rw [h.length_eq, h.rows_eq, h.columns_eq]
    exact hg.length_eq⟩

/-- One cell of the function replaced. -/
def update (f : Int → Int → Cell) (row col : Int) (x : Cell) (r c : Int) : Cell :=
  if r = row ∧ c = col then x else f r c

theorem cell_store (hg : g.Full) (hin : g.Inside row col) (hrc : g.Inside r c) (x : Cell) :
    (g.store row col x).cell r c = update g.cell row col x r c := by
  have hplace := place_bounds hin.1 hin.2
  have hplace' := place_bounds hrc.1 hrc.2
  have hlength := hg.length_eq
  simp only [update, cell, store, place]
  by_cases heq : r = row ∧ c = col
  · obtain ⟨rfl, rfl⟩ := heq
    rw [if_pos ⟨rfl, rfl⟩, List.getD_eq_getElem?_getD, List.getElem?_set_self (by omega)]
    rfl
  · rw [if_neg heq, List.getD_eq_getElem?_getD, List.getD_eq_getElem?_getD, List.getElem?_set_ne]
    intro hindex
    exact heq (place_inj hrc.2 hin.2 (by omega))

theorem Becomes.store (h : g.Becomes g' f) (hg : g.Full) (hin : g.Inside row col) (x : Cell) :
    g.Becomes (g'.store row col x) (update f row col x) := by
  have hin' := h.inside.2 hin
  refine ⟨h.rows_eq, h.columns_eq, by simp [Grid.store, h.length_eq], ?_, fun r c hrc => ?_⟩
  · simp [Grid.store, (h.full hg).reaches hin', h.safe_eq]
  · rw [cell_store (h.full hg) hin' (h.inside.2 hrc), update, update, h.cell_eq r c hrc]

theorem Becomes.copyCell (h : g.Becomes g' f) (hg : g.Full) {toRow toCol : Int}
    (hin : g.Inside row col) (hto : g.Inside toRow toCol) :
    g.Becomes (g'.copyCell row col toRow toCol) (update f toRow toCol (f row col)) := by
  have hreach := (h.full hg).reaches (h.inside.2 hin)
  rw [Grid.copyCell, hreach, checks_true, ← h.cell_eq row col hin]
  exact h.store hg hto _

/-- A row of the function replaced. -/
def updateLine (f : Int → Int → Cell) (row : Int) (x : Int → Cell) (r c : Int) : Cell :=
  if r = row then x c else f r c

theorem Becomes.moveLine (h : g.Becomes g' f) (hg : g.Full) {src dst : Int}
    (hsrc : 0 ≤ src ∧ src < g.rows) (hdst : 0 ≤ dst ∧ dst < g.rows) (hne : src ≠ dst) :
    g.Becomes (g'.moveLine src dst) (updateLine f dst (f src)) := by
  have hcolumns := hg.columns_pos
  rw [Grid.moveLine, h.columns_eq]
  refine (upTo_rule (P := fun n t => g.Becomes t fun r c => if r = dst ∧ c < n then f src c
    else f r c) hcolumns.le ?_ ?_).congr fun r c hin => by simp [updateLine, hin.2.2]
  · exact h.congr fun r c hin => by rw [if_neg]; rintro ⟨-⟩; have := hin.2.1; omega
  · intro c t hge hlt ht
    refine (ht.copyCell hg ⟨hsrc, hge, hlt⟩ ⟨hdst, hge, hlt⟩).congr fun r k hin => ?_
    simp only [update]
    grind

theorem Becomes.fillLine (h : g.Becomes g' f) (hg : g.Full) (hrow : 0 ≤ row ∧ row < g.rows)
    (fill : Cell) : g.Becomes (fillLine fill row g') (updateLine f row fun _ => fill) := by
  have hcolumns := hg.columns_pos
  rw [Grid.fillLine, h.columns_eq]
  refine (upTo_rule (P := fun n t => g.Becomes t fun r c => if r = row ∧ c < n then fill
    else f r c) hcolumns.le ?_ ?_).congr fun r c hin => by simp [updateLine, hin.2.2]
  · exact h.congr fun r c hin => by rw [if_neg]; rintro ⟨-⟩; have := hin.2.1; omega
  · intro c t hge hlt ht
    refine (ht.store hg ⟨hrow, hge, hlt⟩ fill).congr fun r k hin => ?_
    simp only [update]
    grind

/-- Rows filled from the first one on. -/
theorem Becomes.fillLines (h : g.Becomes g' f) (hg : g.Full) {first bound : Int}
    (hfirst : 0 ≤ first) (hbound : bound ≤ g.rows) (fill : Cell) :
    g.Becomes (upTo first bound (Grid.fillLine fill) g')
      fun r c => if first ≤ r ∧ r < bound then fill else f r c := by
  rcases Int.le_total first bound with hle | hle
  · refine upTo_rule (P := fun n t => g.Becomes t fun r c => if first ≤ r ∧ r < n then fill
      else f r c) hle ?_ ?_
    · exact h.congr fun r c _ => by rw [if_neg]; omega
    · intro row t hge hlt ht
      refine (ht.fillLine hg ⟨by omega, by omega⟩ fill).congr fun r c _ => ?_
      simp only [updateLine]
      grind
  · rw [upTo_empty hle]
    exact h.congr fun r c _ => by rw [if_neg]; omega

theorem effectiveLimit_le (g : Grid) (limitRow : Int) : g.effectiveLimit limitRow ≤ g.rows := by
  unfold effectiveLimit
  split
  · exact le_rfl
  · exact min_le_right _ _

/-- Lines inserted below: what stood at `r - count` stands at `r`, behind the blank rows. -/
def inserted (f : Int → Int → Cell) (startRow count limit : Int) (fill : Cell) (r c : Int) : Cell :=
  if startRow ≤ r ∧ r < limit then if r < startRow + count then fill else f (r - count) c
  else f r c

/-- Lines deleted: what stood at `r + count` stands at `r`, before the blank rows. -/
def deleted (f : Int → Int → Cell) (startRow count limit : Int) (fill : Cell) (r c : Int) : Cell :=
  if startRow ≤ r ∧ r < limit then if r + count < limit then f (r + count) c else fill
  else f r c

theorem insertLines_becomes (hg : g.Full) {startRow count limitRow : Int} (fill : Cell)
    (hstart : 0 ≤ startRow) (hlt : startRow < g.effectiveLimit limitRow) (hcount : 0 < count)
    (hsum : inInt (startRow + count) = true)
    (hmove : inInt (g.effectiveLimit limitRow - startRow - count) = true) :
    g.Becomes (g.insertLines startRow count fill limitRow)
      (inserted g.cell startRow count (g.effectiveLimit limitRow) fill) := by
  have hle := g.effectiveLimit_le limitRow
  rw [insertLines, if_neg (by omega)]
  simp only [hsum, hmove, checks_true]
  generalize g.effectiveLimit limitRow = limit at *
  have hmoved : g.Becomes (if 0 < limit - startRow - count then
      downTo (limit - 1) (startRow + count) (fun r g => g.moveLine (r - count) r) g else g)
      fun r c => if startRow + count ≤ r ∧ r < limit then g.cell (r - count) c else g.cell r c := by
    split
    · refine (downTo_rule (P := fun n t => g.Becomes t fun r c => if n < r ∧ r < limit then
        g.cell (r - count) c else g.cell r c) (by omega) ?_ ?_).congr fun r c _ => ?_
      · exact (Becomes.refl g).congr fun r c _ => by rw [if_neg]; omega
      · intro row t hge hrow ht
        refine (ht.moveLine hg (by omega) (by omega) (by omega)).congr fun r c _ => ?_
        simp only [updateLine]
        grind
      · grind
    · exact (Becomes.refl g).congr fun r c _ => by rw [if_neg]; omega
  refine (hmoved.fillLines hg hstart (by omega) fill).congr fun r c _ => ?_
  simp only [inserted]
  grind

theorem deleteLines_becomes (hg : g.Full) {startRow count limitRow : Int} (fill : Cell)
    (hstart : 0 ≤ startRow) (hlt : startRow < g.effectiveLimit limitRow) (hcount : 0 < count)
    (hsum : inInt (startRow + count) = true)
    (hmove : inInt (g.effectiveLimit limitRow - (startRow + count)) = true) :
    g.Becomes (g.deleteLines startRow count fill limitRow)
      (deleted g.cell startRow count (g.effectiveLimit limitRow) fill) := by
  have hle := g.effectiveLimit_le limitRow
  rw [deleteLines, if_neg (by omega)]
  simp only [hsum, hmove, checks_true]
  generalize g.effectiveLimit limitRow = limit at *
  have hmoved : g.Becomes (if 0 < limit - (startRow + count) then
      upTo startRow (startRow + (limit - (startRow + count)))
        (fun r g => g.moveLine (r + count) r) g else g)
      fun r c => if startRow ≤ r ∧ r + count < limit then g.cell (r + count) c
        else g.cell r c := by
    split
    · refine (upTo_rule (P := fun n t => g.Becomes t fun r c => if startRow ≤ r ∧ r < n then
        g.cell (r + count) c else g.cell r c) (by omega) ?_ ?_).congr fun r c _ => ?_
      · exact (Becomes.refl g).congr fun r c _ => by rw [if_neg]; omega
      · intro row t hge hrow ht
        refine (ht.moveLine hg (by omega) (by omega) (by omega)).congr fun r c _ => ?_
        simp only [updateLine]
        grind
      · grind
    · exact (Becomes.refl g).congr fun r c _ => by rw [if_neg]; omega
  refine (hmoved.fillLines hg (by omega) hle fill).congr fun r c _ => ?_
  simp only [deleted]
  grind

def size (g : Grid) : Int × Int × Nat := (g.rows, g.columns, g.cells.length)

theorem size_eq_iff {h : Grid} : g.size = h.size ↔
    g.rows = h.rows ∧ g.columns = h.columns ∧ g.cells.length = h.cells.length := by
  simp [size]

theorem Full.of_size {h : Grid} (hg : g.Full) (hsize : h.size = g.size) : h.Full := by
  obtain ⟨hrows, hcolumns, hlength⟩ := size_eq_iff.1 hsize
  exact ⟨hrows ▸ hg.rows_pos, hcolumns ▸ hg.columns_pos, by
    rw [hlength, hrows, hcolumns]
    exact hg.length_eq⟩

@[simp] theorem size_checks (g : Grid) (b : Bool) : (g.checks b).size = g.size := rfl

@[simp] theorem size_store (g : Grid) (r c : Int) (x : Cell) : (g.store r c x).size = g.size := by
  simp [size, store]

@[simp] theorem size_copyCell (g : Grid) (r c toRow toCol : Int) :
    (g.copyCell r c toRow toCol).size = g.size := by
  simp [copyCell]

@[simp] theorem size_moveLine (g : Grid) (src dst : Int) : (g.moveLine src dst).size = g.size :=
  upTo_same fun _ _ _ _ => size_copyCell _ _ _ _ _

@[simp] theorem size_fillLine (fill : Cell) (row : Int) (g : Grid) :
    (fillLine fill row g).size = g.size :=
  upTo_same fun _ _ _ _ => size_store _ _ _ _

@[simp] theorem size_insertLines (g : Grid) (startRow count : Int) (fill : Cell) (limitRow : Int) :
    (g.insertLines startRow count fill limitRow).size = g.size := by
  simp only [insertLines]
  split
  · rfl
  · refine (upTo_same fun _ _ _ _ => size_fillLine _ _ _).trans ?_
    rw [size_checks]
    split
    · exact downTo_same fun _ _ _ _ => size_moveLine _ _ _
    · rfl

@[simp] theorem size_deleteLines (g : Grid) (startRow count : Int) (fill : Cell) (limitRow : Int) :
    (g.deleteLines startRow count fill limitRow).size = g.size := by
  simp only [deleteLines]
  split
  · rfl
  · refine (upTo_same fun _ _ _ _ => size_fillLine _ _ _).trans ?_
    split
    · exact (upTo_same fun _ _ _ _ => size_moveLine _ _ _)
    · rfl

theorem size_resize (g : Grid) {cols : Int} (hrows : 0 < rows) (hcols : 0 < cols) :
    (g.resize rows cols).size = (rows, cols, (rows * cols).toNat) := by
  rw [resize, if_neg (by omega)]
  split
  · simp [size]
  · refine (upTo_same fun _ _ _ _ => upTo_same fun _ _ _ _ => ?_).trans (by simp [size])
    rw [size_store, size_checks]

theorem resize_full {cols : Int} (g : Grid) (hrows : 0 < rows) (hcols : 0 < cols) :
    (g.resize rows cols).Full := by
  have hsize := g.size_resize hrows hcols
  have hpos := Int.mul_pos hrows hcols
  simp only [size, Prod.mk.injEq] at hsize
  obtain ⟨hr, hc, hl⟩ := hsize
  exact ⟨by rwa [hr], by rwa [hc], by rw [hr, hc]; omega⟩

end Grid

end JobAnsi
