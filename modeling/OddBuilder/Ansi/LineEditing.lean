import OddBuilder.Ansi.Drawing
import Mathlib.Data.Int.Range

/-!
# In-line editing

Deleting, inserting and erasing characters in the row of the cursor. Deleting
more characters than are left blanks cells on the other side of the cursor as
well, because the second loop of `deleteChars` begins at the width minus the count.
-/

namespace JobAnsi

open CountedLoop

namespace Screen

variable {t : Screen}

/-- The first cells, then those from `count` further on, then blanks. -/
def deletedChars (old : Int → Cell) (col width count c : Int) : Cell :=
  if c < col then old c else if c + count < width then old (c + count) else Cell.blank

/-- The first cells, then blanks, then the old cells moved on. -/
def insertedChars (old : Int → Cell) (col count c : Int) : Cell :=
  if c < col then old c else if c < col + count then Cell.blank else old (c - count)

/-- Blanks in place of the old cells. -/
def erasedChars (old : Int → Cell) (col count c : Int) : Cell :=
  if col ≤ c ∧ c < col + count then Cell.blank else old c

/-- What `deleteChars` makes of the row. -/
def shiftedChars (old : Int → Cell) (col width count c : Int) : Cell :=
  if width - count ≤ c then Cell.blank else if col ≤ c then old (c + count) else old c

/-- The row of the cursor becomes `f`, and no other cell changes. -/
def EditsRow (s t : Screen) (f : Int → Cell) : Prop :=
  s.activeGrid.Becomes t.activeGrid (Grid.updateLine s.activeGrid.cell s.cursor.row f) ∧
    t.safe = s.safe

/-- The cursor stands on the grid, in a row without protected cells. -/
structure Editable (s : Screen) : Prop where
  full : s.activeGrid.Full
  columns_eq : s.columnCount = s.activeGrid.columns
  cursor_inside : s.activeGrid.Inside s.cursor.row s.cursor.column
  columns_int : s.columnCount ≤ 2147483647
  erasable : ∀ c, 0 ≤ c → c < s.columnCount →
    (s.activeGrid.cell s.cursor.row c).protectErase = false
  writable : ∀ c, 0 ≤ c → c < s.columnCount →
    (s.activeGrid.cell s.cursor.row c).protectWrite = false
  safe : s.safe = true

variable {s : Screen} {count : Int}

theorem Editable.inside (hs : s.Editable) {c : Int} (hc : 0 ≤ c ∧ c < s.columnCount) :
    s.activeGrid.Inside s.cursor.row c :=
  ⟨hs.cursor_inside.1, hc.1, hs.columns_eq ▸ hc.2⟩

theorem Editable.column_bounds (hs : s.Editable) :
    0 ≤ s.cursor.column ∧ s.cursor.column < s.columnCount :=
  ⟨hs.cursor_inside.2.1, hs.columns_eq ▸ hs.cursor_inside.2.2⟩

theorem Editable.cell_eq (hs : s.Editable) (hcount : 1 ≤ count) {i : Int}
    (hi : s.cursor.column ≤ i ∧ i + count < s.columnCount)
    (ht : s.Draws t fun r c => if r = s.cursor.row ∧ s.cursor.column ≤ c ∧ c < i then
      s.activeGrid.cell r (c + count) else s.activeGrid.cell r c) :
    t.activeGrid.cell s.cursor.row i = s.activeGrid.cell s.cursor.row i ∧
      t.activeGrid.cell s.cursor.row (i + count) =
        s.activeGrid.cell s.cursor.row (i + count) := by
  have hcol := hs.column_bounds
  constructor
  · rw [ht.becomes.cell_eq _ _ (hs.inside (by omega)), if_neg (by omega)]
  · rw [ht.becomes.cell_eq _ _ (hs.inside (by omega)), if_neg (by omega)]

/-- The first loop: the cells behind those deleted come to the cursor. -/
theorem deleteChars_shift (hs : s.Editable) (hcount : 1 ≤ count) :
    s.Draws (upTo s.cursor.column (s.columnCount - count) (fun i t =>
        if t.hasCell s.cursor.row i && t.hasCell s.cursor.row (i + count) &&
            !(t.activeGrid.cell s.cursor.row i).protectWrite then
          t.modifyCell (fun _ => t.activeGrid.cell s.cursor.row (i + count)) s.cursor.row i
        else t) s)
      fun r c => if r = s.cursor.row ∧ s.cursor.column ≤ c ∧ c < s.columnCount - count then
        s.activeGrid.cell r (c + count) else s.activeGrid.cell r c := by
  have hcol := hs.column_bounds
  rcases Int.le_total s.cursor.column (s.columnCount - count) with hle | hle
  · refine upTo_rule (P := fun n t => s.Draws t fun r c =>
      if r = s.cursor.row ∧ s.cursor.column ≤ c ∧ c < n then
        s.activeGrid.cell r (c + count) else s.activeGrid.cell r c) hle ?_ ?_
    · exact (Draws.refl s).congr fun r c _ => by rw [if_neg]; omega
    · intro i t hge hlt ht
      obtain ⟨hcell⟩ := hs.cell_eq hcount ⟨hge, by omega⟩ ht
      rw [hcell, ht.hasCell_eq, ht.hasCell_eq, hs.writable i (by omega) (by omega),
        hasCell_iff.2 (hs.inside (c := i) (by omega)),
        hasCell_iff.2 (hs.inside (c := i + count) (by omega)),
        if_pos (c := (true && true && !false) = true) rfl]
      refine (ht.modifyCell hs.full (hs.inside (c := i) (by omega)) _).congr fun r c _ => ?_
      simp only [Grid.update]
      grind
  · rw [upTo_empty hle]
    exact (Draws.refl s).congr fun r c _ => by rw [if_neg]; omega

theorem deleteChars_draws (hs : s.Editable) (hcount : 1 ≤ count) (hint : inInt count = true) :
    s.Draws (s.deleteChars count) (Grid.updateLine s.activeGrid.cell s.cursor.row
      (shiftedChars (s.activeGrid.cell s.cursor.row) s.cursor.column s.columnCount count)) := by
  have hcol := hs.column_bounds
  have hwidth := hs.columns_int
  rw [inInt_iff] at hint
  have hstart : s.computes [s.columnCount - count] = s := by
    have hsafe : inInt (s.columnCount - count) = true := by rw [inInt_iff]; omega
    simp [computes, hsafe]
  simp only [deleteChars, hstart]
  refine ((deleteChars_shift hs hcount).modifyRow hs.full hs.cursor_inside.1
    hs.columns_eq.le resetCell).congr fun r c hin => ?_
  have hc : c < s.columnCount := hs.columns_eq ▸ hin.2.2
  have hrow := hs.erasable
  simp only [Grid.updateLine, shiftedChars, resetCell, Cell.reset_eq]
  grind [Grid.Inside]

theorem eraseChars_draws (hs : s.Editable) :
    s.Draws (s.eraseChars count) (Grid.updateLine s.activeGrid.cell s.cursor.row
      (erasedChars (s.activeGrid.cell s.cursor.row) s.cursor.column count)) := by
  have hcol := hs.column_bounds
  have hrow := hs.erasable
  rcases Int.le_total 0 (min count (s.columnCount - s.cursor.column)) with hle | hle
  · refine (upTo_rule (P := fun n t => s.Draws t fun r c => if r = s.cursor.row ∧
      s.cursor.column ≤ c ∧ c < s.cursor.column + n then Cell.blank
      else s.activeGrid.cell r c) hle ?_ ?_).congr fun r c hin => ?_
    · exact (Draws.refl s).congr fun r c _ => by rw [if_neg]; omega
    · intro i t hge hlt ht
      have hin := hs.inside (c := s.cursor.column + i) (by omega)
      refine (ht.modifyAt hs.full hin resetCell).congr fun r c _ => ?_
      simp only [Grid.update, resetCell, Cell.reset_eq]
      grind
    · have hc : c < s.columnCount := hs.columns_eq ▸ hin.2.2
      simp only [Grid.updateLine, erasedChars]
      grind
  · rw [eraseChars, upTo_empty hle]
    refine (Draws.refl s).congr fun r c _ => ?_
    simp only [Grid.updateLine, erasedChars]
    grind

theorem Draws.derefAt {f : Int → Int → Cell} (h : s.Draws t f) (hfull : s.activeGrid.Full)
    {row col : Int} (hin : s.activeGrid.Inside row col) (change : Cell → Cell) :
    s.Draws (t.derefAt change row col) (Grid.update f row col (change (f row col))) := by
  have hcell : t.hasCell row col = true := by rw [h.hasCell_eq, hasCell_iff]; exact hin
  rw [Screen.derefAt]
  simp only [hcell, Bool.and_true]
  exact h.modifyAt hfull hin change

theorem Draws.copyDeref {f : Int → Int → Cell} (h : s.Draws t f) (hfull : s.activeGrid.Full)
    {row src dst : Int} (hsrc : s.activeGrid.Inside row src) (hdst : s.activeGrid.Inside row dst) :
    s.Draws (t.copyDeref row src dst) (Grid.update f row dst (f row src)) := by
  have hcell : t.hasCell row src = true := by rw [h.hasCell_eq, hasCell_iff]; exact hsrc
  rw [Screen.copyDeref]
  simp only [hcell, Bool.and_true, h.becomes.cell_eq row src hsrc]
  exact h.derefAt hfull hdst _

theorem ich_draws (hs : s.Editable) (hcount : 1 ≤ count)
    (hint : inInt (s.cursor.column + count) = true) :
    s.Draws (s.ich [count]) (Grid.updateLine s.activeGrid.cell s.cursor.row
      (insertedChars (s.activeGrid.cell s.cursor.row) s.cursor.column count)) := by
  have hcol := hs.column_bounds
  have hstart : s.computes [s.cursor.column + count] = s := by simp [computes, hint]
  simp only [ich, List.headD_cons, if_neg hcol.2.not_ge, hstart]
  have hmoved : s.Draws (downTo (s.columnCount - 1) (s.cursor.column + count)
      (fun i t => t.copyDeref s.cursor.row (i - count) i) s)
      fun r c => if r = s.cursor.row ∧ s.cursor.column + count ≤ c then
        s.activeGrid.cell r (c - count) else s.activeGrid.cell r c := by
    by_cases hle : s.cursor.column + count ≤ s.columnCount - 1 + 1
    · refine (downTo_rule (P := fun n t => s.Draws t fun r c =>
        if r = s.cursor.row ∧ n < c then s.activeGrid.cell r (c - count)
        else s.activeGrid.cell r c) hle ?_ ?_).congr fun r c _ => ?_
      · refine (Draws.refl s).congr fun r c hin => ?_
        have hc : c < s.columnCount := hs.columns_eq ▸ hin.2.2
        rw [if_neg]
        omega
      · intro i t hge hlt ht
        have hsrc := hs.inside (c := i - count) (by omega)
        have hdst := hs.inside (c := i) (by omega)
        refine (ht.copyDeref hs.full hsrc hdst).congr fun r c _ => ?_
        simp only [Grid.update]
        grind
      · grind
    · rw [downTo_empty (by omega)]
      refine (Draws.refl s).congr fun r c hin => ?_
      have hc : c < s.columnCount := hs.columns_eq ▸ hin.2.2
      rw [if_neg]
      omega
  rcases Int.le_total s.cursor.column (min (s.cursor.column + count) s.columnCount)
    with hle | hle
  · refine (upTo_rule (P := fun n t => s.Draws t fun r c => if r = s.cursor.row ∧
      s.cursor.column ≤ c ∧ c < n then Cell.blank
      else if r = s.cursor.row ∧ s.cursor.column + count ≤ c then
        s.activeGrid.cell r (c - count) else s.activeGrid.cell r c) hle ?_ ?_).congr
      fun r c hin => ?_
    · exact hmoved.congr fun r c _ => (if_neg (by omega)).symm
    · intro i t hge hlt ht
      refine (ht.derefAt hs.full (hs.inside (c := i) (by omega)) Cell.reset).congr fun r c _ => ?_
      simp only [Grid.update, Cell.reset_eq]
      grind
    · have hc : c < s.columnCount := hs.columns_eq ▸ hin.2.2
      simp only [Grid.updateLine, insertedChars]
      grind
  · omega

@[simp] theorem modifyAt_safe (change : Cell → Cell) (r c : Int) (t : Screen) :
    (t.modifyAt change r c).safe = t.safe := by
  unfold modifyAt
  split <;> rfl

theorem derefAt_unsafe (h : t.safe = false) (change : Cell → Cell) (r c : Int) :
    (t.derefAt change r c).safe = false := by
  simp [derefAt, h]

theorem copyDeref_unsafe (h : t.safe = false) (row src dst : Int) :
    (t.copyDeref row src dst).safe = false := by
  simp [copyDeref, derefAt_unsafe h]

/-- Inserting computes the column behind the blanks. -/
theorem ich_overflows (hcol : s.cursor.column < s.columnCount)
    (hint : inInt (s.cursor.column + count) = false) : (s.ich [count]).safe = false := by
  simp only [ich, if_neg hcol.not_ge]
  refine upTo_keeps (P := fun t : Screen => t.safe = false) ?_
    fun i t _ _ ht => derefAt_unsafe ht _ _ _
  refine downTo_keeps (P := fun t : Screen => t.safe = false) ?_
    fun i t _ _ ht => copyDeref_unsafe ht _ _ _
  simp [computes, hint]

theorem Draws.editsRow {f : Int → Cell}
    (h : s.Draws t (Grid.updateLine s.activeGrid.cell s.cursor.row f)) : s.EditsRow t f :=
  ⟨h.becomes, h.safe_eq⟩

/-- Deleting is right exactly if what it blanks left of the cursor was blank. -/
theorem deleteChars_edits_iff (hs : s.Editable) (hcount : 1 ≤ count) (hint : inInt count = true) :
    s.EditsRow (s.deleteChars count)
        (deletedChars (s.activeGrid.cell s.cursor.row) s.cursor.column s.columnCount count) ↔
      ∀ c, 0 ≤ c → s.columnCount - count ≤ c → c < s.cursor.column →
        s.activeGrid.cell s.cursor.row c = Cell.blank := by
  have hdraws := deleteChars_draws hs hcount hint
  constructor
  · rintro ⟨hbecomes⟩ c hc hge hlt
    have hin := hs.inside (c := c) ⟨hc, hlt.trans hs.column_bounds.2⟩
    have hwanted := hbecomes.cell_eq _ _ hin
    rw [hdraws.becomes.cell_eq _ _ hin] at hwanted
    simp only [Grid.updateLine, shiftedChars, if_pos hge, deletedChars, if_pos hlt]
      at hwanted
    exact hwanted.symm
  · intro hblank
    refine (hdraws.congr fun r c hin => ?_).editsRow
    have hc := hin.2
    simp only [Grid.updateLine, shiftedChars, deletedChars]
    grind

/-- The three operations are right exactly if the cells that deleting blanks left of the
cursor were blank and the column behind the inserted cells is an `int`. -/
theorem lineEditing_iff (hs : s.Editable) (hcount : 1 ≤ count) (hint : inInt count = true)
    (privateMode : Bool) :
    (s.EditsRow (s.dispatchCSI privateMode .DCH [count])
          (deletedChars (s.activeGrid.cell s.cursor.row) s.cursor.column s.columnCount count) ∧
        s.EditsRow (s.dispatchCSI privateMode .ICH [count])
          (insertedChars (s.activeGrid.cell s.cursor.row) s.cursor.column count) ∧
        s.EditsRow (s.dispatchCSI privateMode .ECH [count])
          (erasedChars (s.activeGrid.cell s.cursor.row) s.cursor.column count)) ↔
      (∀ c, 0 ≤ c → s.columnCount - count ≤ c → c < s.cursor.column →
          s.activeGrid.cell s.cursor.row c = Cell.blank) ∧
        s.cursor.column + count ≤ 2147483647 := by
  have hcol := hs.column_bounds
  have hinsert : s.EditsRow (s.ich [count])
      (insertedChars (s.activeGrid.cell s.cursor.row) s.cursor.column count) ↔
        s.cursor.column + count ≤ 2147483647 := by
    constructor
    · rintro ⟨-, hsafe⟩
      by_contra hlt
      have hblock := @ich_overflows s count hcol.2 (by
        rw [← Bool.not_eq_true, inInt_iff]
        omega)
      rw [hblock, hs.safe] at hsafe
      exact Bool.false_ne_true hsafe
    · intro hle
      rw [inInt_iff] at hint
      exact (ich_draws hs hcount (inInt_iff.2 (by omega))).editsRow
  have herase : s.EditsRow (s.eraseChars count)
      (erasedChars (s.activeGrid.cell s.cursor.row) s.cursor.column count) :=
    (eraseChars_draws hs).editsRow
  simp only [dispatchCSI, List.headD_cons, deleteChars_edits_iff hs hcount hint, hinsert]
  exact ⟨fun h => ⟨h.1, h.2.1⟩, fun h => ⟨h.1, h.2, herase⟩⟩

/-- A fresh screen of one row, behind one character. -/
def oneCharacter : Screen := (Screen.make 1 2).handleGround 97

theorem oneCharacter_editable : oneCharacter.Editable where
  full := ⟨by decide, by decide, by decide⟩
  columns_eq := by decide
  cursor_inside := ⟨by decide, by decide⟩
  columns_int := by decide
  erasable := by decide
  writable := by decide
  safe := by decide

theorem lineEditing_one :
    (oneCharacter.EditsRow (oneCharacter.dispatchCSI false .DCH [1])
          (deletedChars (oneCharacter.activeGrid.cell oneCharacter.cursor.row)
            oneCharacter.cursor.column oneCharacter.columnCount 1) ∧
        oneCharacter.EditsRow (oneCharacter.dispatchCSI false .ICH [1])
          (insertedChars (oneCharacter.activeGrid.cell oneCharacter.cursor.row)
            oneCharacter.cursor.column 1) ∧
        oneCharacter.EditsRow (oneCharacter.dispatchCSI false .ECH [1])
          (erasedChars (oneCharacter.activeGrid.cell oneCharacter.cursor.row)
            oneCharacter.cursor.column 1)) :=
  (lineEditing_iff oneCharacter_editable (by decide) (by decide) false).2
    ⟨fun c _ hge hlt => by
      have hcolumns : oneCharacter.columnCount = 2 := by decide
      have hcolumn : oneCharacter.cursor.column = 1 := by decide
      omega, by decide⟩

/-- Two characters deleted in the last column: the one left of the cursor is gone. -/
theorem deleteChars_left_of_cursor :
    ¬ ∀ (s : Screen) (count : Int), s.Editable → 1 ≤ count → inInt count = true →
      s.EditsRow (s.dispatchCSI false .DCH [count])
        (deletedChars (s.activeGrid.cell s.cursor.row) s.cursor.column s.columnCount count) := by
  intro h
  have hedits := h oneCharacter 2 oneCharacter_editable (by decide) (by decide)
  have hcell := hedits.1.cell_eq 0 0 ⟨by decide, by decide⟩
  revert hcell
  decide

end Screen

end JobAnsi
