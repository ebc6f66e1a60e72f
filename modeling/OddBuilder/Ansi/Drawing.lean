import OddBuilder.Ansi.Dispatch

/-!
# Drawing

Operations that only put cells into the active grid. `Draws` says what the grid
shows behind them; all else of the screen is as before.
-/

namespace JobAnsi

open CountedLoop

namespace Screen

@[simp] theorem activeGrid_setGrid (s : Screen) (g : Grid) : (s.setGrid g).activeGrid = g := by
  unfold activeGrid setGrid
  split <;> rfl

@[simp] theorem setGrid_setGrid (s : Screen) (g h : Grid) :
    (s.setGrid g).setGrid h = s.setGrid h := by
  unfold setGrid
  cases s.inAlternateGrid <;> rfl

@[simp] theorem setGrid_activeGrid (s : Screen) : s.setGrid s.activeGrid = s := by
  obtain ⟨⟩ := s
  unfold setGrid activeGrid
  split <;> simp_all

@[simp] theorem setGrid_modifyCell (s : Screen) (g : Grid) (h : Cell → Cell) (r c : Int) :
    (s.setGrid g).modifyCell h r c = s.setGrid (g.store r c (h (g.cell r c))) := by
  simp [modifyCell]

theorem hasCell_iff {s : Screen} {r c : Int} : s.hasCell r c = true ↔ s.activeGrid.Inside r c := by
  simp only [hasCell, Grid.Inside, Bool.not_eq_true', Bool.or_eq_false_iff, decide_eq_false_iff_not]
  omega

/-- `t` is `s` with the active grid showing `f`. -/
def Draws (s t : Screen) (f : Int → Int → Cell) : Prop :=
  ∃ g, t = s.setGrid g ∧ s.activeGrid.Becomes g f

variable {s t : Screen} {f f' : Int → Int → Cell}

theorem Draws.refl (s : Screen) : s.Draws s s.activeGrid.cell :=
  ⟨s.activeGrid, s.setGrid_activeGrid.symm, .refl _⟩

theorem Draws.congr (h : s.Draws t f)
    (heq : ∀ r c, s.activeGrid.Inside r c → f r c = f' r c) : s.Draws t f' := by
  obtain ⟨g, rfl, hg⟩ := h
  exact ⟨g, rfl, hg.congr heq⟩

theorem Draws.becomes (h : s.Draws t f) : s.activeGrid.Becomes t.activeGrid f := by
  obtain ⟨g, rfl, hg⟩ := h
  simpa using hg

theorem Draws.safe_eq (h : s.Draws t f) : t.safe = s.safe := by
  obtain ⟨g, rfl, -⟩ := h
  rfl

theorem Draws.hasCell_eq (h : s.Draws t f) (r c : Int) : t.hasCell r c = s.hasCell r c := by
  rw [Bool.eq_iff_iff, hasCell_iff, hasCell_iff, h.becomes.inside]

theorem Draws.modifyCell (h : s.Draws t f) (hfull : s.activeGrid.Full) {row col : Int}
    (hin : s.activeGrid.Inside row col) (change : Cell → Cell) :
    s.Draws (t.modifyCell change row col) (Grid.update f row col (change (f row col))) := by
  obtain ⟨g, rfl, hg⟩ := h
  refine ⟨_, setGrid_modifyCell s g change row col, ?_⟩
  rw [hg.cell_eq row col hin]
  exact hg.store hfull hin _

theorem Draws.modifyAt (h : s.Draws t f) (hfull : s.activeGrid.Full) {row col : Int}
    (hin : s.activeGrid.Inside row col) (change : Cell → Cell) :
    s.Draws (t.modifyAt change row col) (Grid.update f row col (change (f row col))) := by
  rw [Screen.modifyAt, h.hasCell_eq, if_pos (hasCell_iff.2 hin)]
  exact h.modifyCell hfull hin change

theorem modifyAt_outside {row col : Int} (hout : t.hasCell row col = false) (change : Cell → Cell) :
    t.modifyAt change row col = t := by
  simp [Screen.modifyAt, hout]

/-- A loop over a part of a row; `change` sees each cell as it was before. -/
theorem Draws.modifyRow (h : s.Draws t f) (hfull : s.activeGrid.Full) {row first bound : Int}
    (hrow : 0 ≤ row ∧ row < s.activeGrid.rows) (hbound : bound ≤ s.activeGrid.columns)
    (change : Cell → Cell) :
    s.Draws (upTo first bound (fun c t => t.modifyAt change row c) t)
      fun r c => if r = row ∧ first ≤ c ∧ c < bound then change (f r c) else f r c := by
  rcases Int.le_total first bound with hle | hle
  · refine upTo_rule (P := fun n t => s.Draws t fun r c =>
      if r = row ∧ first ≤ c ∧ c < n then change (f r c) else f r c) hle ?_ ?_
    · exact h.congr fun r c _ => by rw [if_neg]; omega
    · intro col t hge hlt ht
      by_cases hcol : 0 ≤ col
      · refine (ht.modifyAt hfull ⟨hrow, hcol, by omega⟩ change).congr fun r c _ => ?_
        simp only [Grid.update]
        grind
      · have hout : t.hasCell row col = false := by
          rw [← Bool.not_eq_true, hasCell_iff]
          intro hin
          exact hcol hin.2.1
        rw [modifyAt_outside hout]
        refine ht.congr fun r c hin => ?_
        have := hin.2.1
        grind
  · rw [upTo_empty hle]
    exact h.congr fun r c _ => by rw [if_neg]; omega

end Screen

end JobAnsi
