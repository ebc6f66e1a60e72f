import OddBuilder.Library.SequentialCopy
import OddBuilder.Ansi.BoundsRuns
import OddBuilder.Ansi.LineEditing

/-!
# Copying a rectangle

The cells are copied in place, row by row and from the left. A copy up, or to the
left in its rows, reads every cell before it writes it; one that goes down or to
the right may read what it wrote. `insertLines` and `deleteLines` of the grid
choose the direction of their loops by where they move.
-/

namespace JobAnsi

open CountedLoop SequentialCopy

namespace Screen

/-- The cell belongs to the rectangle. -/
def Rectangle.Contains (area : Rectangle) (r c : Int) : Prop :=
  (area.top ≤ r ∧ r ≤ area.bottom) ∧ area.left ≤ c ∧ c ≤ area.right

instance (area : Rectangle) (r c : Int) : Decidable (area.Contains r c) :=
  inferInstanceAs (Decidable (_ ∧ _))

/-- The rectangle to copy, clamped to the screen and put in order. -/
def copySource (s : Screen) (params : List Int) : Rectangle :=
  s.rectangle (position params 0 0) (position params 1 0)
    (position params 2 (s.rowCount - 1)) (position params 3 (s.columnCount - 1))

/-- How far down the copy is. -/
def copyDown (s : Screen) (params : List Int) : Int :=
  clamp (position params 5 0) 0 (s.rowCount - 1) - (s.copySource params).top

/-- How far to the right the copy is. -/
def copyRight (s : Screen) (params : List Int) : Int :=
  clamp (position params 6 0) 0 (s.columnCount - 1) - (s.copySource params).left

/-- The rectangle's cells moved to their new place, the others as they were. -/
def movedRectangle (f : Int → Int → Cell) (area : Rectangle) (down right r c : Int) : Cell :=
  if area.Contains (r - down) (c - right) then f (r - down) (c - right) else f r c

/-- Each cell of the new place shows what its source showed; nothing else has changed. -/
def CopiesRectangle (s : Screen) (params : List Int) (t : Screen) : Prop :=
  s.Draws t (movedRectangle s.activeGrid.cell (s.copySource params) (s.copyDown params)
    (s.copyRight params))

/-- Where the copy goes down or to the right, the cells to copy that it has overwritten by then
showed what it wrote there. -/
def CopyUndisturbed (s : Screen) (params : List Int) : Prop :=
  let area := s.copySource params
  let down := s.copyDown params
  let right := s.copyRight params
  0 < down ∨ down = 0 ∧ 0 < right →
    ∀ r c, area.Contains r c → area.Contains (r - down) (c - right) →
      s.activeGrid.Inside (r + down) (c + right) →
        s.activeGrid.cell r c = s.activeGrid.cell (r - down) (c - right)

variable {s t : Screen} {params : List Int}

/-- The rows that are copied; the others would lie below the screen. -/
def copyRows (s : Screen) (params : List Int) : Int :=
  let top := clamp (position params 5 0) 0 (s.rowCount - 1)
  let height := (s.copySource params).bottom - (s.copySource params).top + 1
  min height (min (top + height - 1) (s.rowCount - 1) - top + 1)

def copyColumns (s : Screen) (params : List Int) : Int :=
  let left := clamp (position params 6 0) 0 (s.columnCount - 1)
  let width := (s.copySource params).right - (s.copySource params).left + 1
  min width (min (left + width - 1) (s.columnCount - 1) - left + 1)

def copyMove (s : Screen) (params : List Int) (p : Int × Int) : Move (Int × Int) where
  src := ((s.copySource params).top + p.1, (s.copySource params).left + p.2)
  dst := (clamp (position params 5 0) 0 (s.rowCount - 1) + p.1,
    clamp (position params 6 0) 0 (s.columnCount - 1) + p.2)

def copyMoves (s : Screen) (params : List Int) : List (Move (Int × Int)) :=
  (turns 0 (s.copyRows params) 0 (s.copyColumns params)).map (s.copyMove params)

/-- What the sequence computes from its parameters. -/
def copyComputes (s : Screen) (params : List Int) : Screen :=
  let area := s.copySource params
  s.computes (positions params [0, 1, 2, 3, 5, 6] ++
    [clamp (position params 5 0) 0 (s.rowCount - 1) + (area.bottom - area.top + 1),
      clamp (position params 6 0) 0 (s.columnCount - 1) + (area.right - area.left + 1)])

theorem deccra_eq (s : Screen) (params : List Int) : s.deccra params =
    (s.copyMoves params).foldl (fun t m => t.copyAt m.src.1 m.src.2 m.dst.1 m.dst.2)
      (s.copyComputes params) := by
  rw [copyMoves, List.foldl_map]
  exact upTo_upTo (fun row col t => t.copyAt ((s.copySource params).top + row)
    ((s.copySource params).left + col) (clamp (position params 5 0) 0 (s.rowCount - 1) + row)
    (clamp (position params 6 0) 0 (s.columnCount - 1) + col)) (s.copyComputes params)

theorem Draws.copyAt {f : Int → Int → Cell} (h : s.Draws t f) (hfull : s.activeGrid.Full)
    {row col toRow toCol : Int} (hsrc : s.activeGrid.Inside row col)
    (hdst : s.activeGrid.Inside toRow toCol) :
    s.Draws (t.copyAt row col toRow toCol) (Grid.update f toRow toCol (f row col)) := by
  rw [Screen.copyAt, h.hasCell_eq, if_pos (hasCell_iff.2 hsrc), h.becomes.cell_eq row col hsrc]
  exact h.modifyAt hfull hdst _

theorem Draws.copies {f : Int × Int → Cell} {moves : List (Move (Int × Int))}
    (h : s.Draws t fun r c => f (r, c)) (hfull : s.activeGrid.Full)
    (hin : ∀ m ∈ moves, s.activeGrid.Inside m.src.1 m.src.2 ∧
      s.activeGrid.Inside m.dst.1 m.dst.2) :
    s.Draws (moves.foldl (fun t m => t.copyAt m.src.1 m.src.2 m.dst.1 m.dst.2) t)
      fun r c => SequentialCopy.copies moves f (r, c) := by
  induction moves generalizing t f with
  | nil => exact h
  | cons m moves ih =>
    obtain ⟨hsrc, hdst⟩ := hin m (by simp)
    refine ih ((h.copyAt hfull hsrc hdst).congr fun r c _ => ?_)
      fun m' hm' => hin m' (List.mem_cons_of_mem _ hm')
    simp [Grid.update, Function.update_apply, Prod.ext_iff]

theorem copyAt_safe (row col toRow toCol : Int) (t : Screen) :
    (t.copyAt row col toRow toCol).safe = t.safe := by
  unfold copyAt
  split
  · exact modifyAt_safe _ _ _ _
  · rfl

theorem deccra_safe (s : Screen) (params : List Int) :
    (s.deccra params).safe = (s.copyComputes params).safe := by
  rw [deccra_eq]
  generalize s.copyMoves params = moves
  generalize s.copyComputes params = t
  induction moves generalizing t with
  | nil => rfl
  | cons m moves ih => rw [List.foldl_cons, ih, copyAt_safe]

theorem copySource_inside (h : s.Formed) (params : List Int) {r c : Int}
    (harea : (s.copySource params).Contains r c) : s.activeGrid.Inside r c := by
  have hrows := h.rows_pos
  have hcolumns := h.columns_pos
  have htop := clamp_bounds (n := position params 0 0) (show 0 ≤ s.rowCount - 1 by omega)
  have hbottom := clamp_bounds (n := position params 2 (s.rowCount - 1))
    (show 0 ≤ s.rowCount - 1 by omega)
  have hleft := clamp_bounds (n := position params 1 0) (show 0 ≤ s.columnCount - 1 by omega)
  have hright := clamp_bounds (n := position params 3 (s.columnCount - 1))
    (show 0 ≤ s.columnCount - 1 by omega)
  rw [h.inside_iff]
  simp only [Rectangle.Contains, copySource, rectangle] at harea
  omega

theorem mem_copyMoves (h : s.Formed) {m : Move (Int × Int)} :
    m ∈ s.copyMoves params ↔
      m.dst = (m.src.1 + s.copyDown params, m.src.2 + s.copyRight params) ∧
        (s.copySource params).Contains m.src.1 m.src.2 ∧
        s.activeGrid.Inside m.dst.1 m.dst.2 := by
  have hrows := h.rows_pos
  have hcolumns := h.columns_pos
  have htop := clamp_bounds (n := position params 5 0) (show 0 ≤ s.rowCount - 1 by omega)
  have hleft := clamp_bounds (n := position params 6 0) (show 0 ≤ s.columnCount - 1 by omega)
  obtain ⟨⟨r, c⟩, toRow, toCol⟩ := m
  simp only [copyMoves, List.mem_map, mem_turns, copyMove, Move.mk.injEq, Prod.mk.injEq,
    h.inside_iff, Rectangle.Contains, copyDown, copyRight, copyRows, copyColumns]
  constructor
  · rintro ⟨⟨row⟩, hturn, ⟨rfl⟩, rfl, rfl⟩
    omega
  · rintro ⟨⟨rfl⟩⟩
    refine ⟨(r - (s.copySource params).top, c - (s.copySource params).left), ?_, ?_⟩
    · omega
    · omega

theorem copyMoves_separate (s : Screen) (params : List Int) : Separate (s.copyMoves params) := by
  rw [Separate, copyMoves, List.pairwise_map]
  refine (turns_sorted _ _ _ _).imp fun {p q} hlt heq => ?_
  simp only [copyMove, Prod.mk.injEq] at heq
  unfold Earlier at hlt
  omega

theorem deccra_draws (h : s.Formed) (hfits : s.copyComputes params = s) :
    s.Draws (s.deccra params) fun r c =>
      SequentialCopy.copies (s.copyMoves params) (fun p => s.activeGrid.cell p.1 p.2) (r, c) := by
  rw [deccra_eq, hfits]
  refine (Draws.refl s).copies h.active_full fun m hm => ?_
  obtain ⟨-, hsrc, hdst⟩ := (mem_copyMoves h).1 hm
  exact ⟨copySource_inside h params hsrc, hdst⟩

theorem copiesRectangle_iff_moves (h : s.Formed) (hfits : s.copyComputes params = s) :
    s.CopiesRectangle params (s.deccra params) ↔ ∀ m ∈ s.copyMoves params,
      SequentialCopy.copies (s.copyMoves params) (fun p => s.activeGrid.cell p.1 p.2) m.dst =
        s.activeGrid.cell m.src.1 m.src.2 := by
  have hdraws := deccra_draws h hfits
  constructor
  · intro hcopies m hm
    obtain ⟨hdst, harea, hin⟩ := (mem_copyMoves h).1 hm
    rw [← hdraws.becomes.cell_eq _ _ hin, hcopies.becomes.cell_eq _ _ hin, hdst]
    simp [movedRectangle, if_pos harea]
  · intro hmoves
    refine hdraws.congr fun r c hin => ?_
    unfold movedRectangle
    split
    · rename_i harea
      exact hmoves ⟨(r - s.copyDown params, c - s.copyRight params), (r, c)⟩
        ((mem_copyMoves h).2 ⟨by simp, harea, hin⟩)
    · rename_i hout
      refine copies_frame fun m hm heq => hout ?_
      obtain ⟨hdst, harea, -⟩ := (mem_copyMoves h).1 hm
      rw [hdst, Prod.mk.injEq] at heq
      rwa [← heq.1, ← heq.2, Int.add_sub_cancel, Int.add_sub_cancel]

theorem copyUndisturbed_iff_moves (h : s.Formed) :
    s.CopyUndisturbed params ↔ (s.copyMoves params).Pairwise fun m m' => m.dst = m'.src →
      s.activeGrid.cell m'.src.1 m'.src.2 = s.activeGrid.cell m.src.1 m.src.2 := by
  have hpairs : (s.copyMoves params).Pairwise (fun m m' => m.dst = m'.src →
      s.activeGrid.cell m'.src.1 m'.src.2 = s.activeGrid.cell m.src.1 m.src.2) ↔
      ∀ m ∈ s.copyMoves params, ∀ m' ∈ s.copyMoves params, Earlier m.src m'.src →
        m.dst = m'.src →
          s.activeGrid.cell m'.src.1 m'.src.2 = s.activeGrid.cell m.src.1 m.src.2 := by
    simp only [copyMoves, List.pairwise_map, turns_pairwise_iff, List.forall_mem_map, Earlier,
      copyMove, Int.add_lt_add_iff_left, Int.add_right_inj]
  rw [hpairs]
  constructor
  · intro hundisturbed m hm m' hm' hlt heq
    obtain ⟨hdst, harea, -⟩ := (mem_copyMoves h).1 hm
    obtain ⟨hdst', harea', hin'⟩ := (mem_copyMoves h).1 hm'
    rw [hdst] at heq
    rw [hdst'] at hin'
    have hrow : m'.src.1 - s.copyDown params = m.src.1 := by rw [← heq, Int.add_sub_cancel]
    have hcol : m'.src.2 - s.copyRight params = m.src.2 := by rw [← heq, Int.add_sub_cancel]
    have hsame := hundisturbed (by unfold Earlier at hlt; omega) m'.src.1 m'.src.2 harea'
      (by rwa [hrow, hcol]) hin'
    rwa [hrow, hcol] at hsame
  · intro hmoves hforward r c harea hbefore hin
    refine hmoves ⟨(r - s.copyDown params, c - s.copyRight params), (r, c)⟩ ?_
      ⟨(r, c), (r + s.copyDown params, c + s.copyRight params)⟩ ?_ ?_ rfl
    · exact (mem_copyMoves h).2 ⟨by simp, hbefore, copySource_inside h params harea⟩
    · exact (mem_copyMoves h).2 ⟨rfl, harea, hin⟩
    · unfold Earlier
      dsimp only
      omega

/-- The copy is right exactly if its computations stay in range and no cell that it overwrites
before reading it showed anything else. -/
theorem deccra_iff (h : s.Formed) (hsafe : s.safe = true) (privateMode : Bool)
    (params : List Int) :
    s.CopiesRectangle params (s.dispatchCSI privateMode .DECCRA params) ↔
      s.fitsCSI privateMode .DECCRA params = true ∧ s.CopyUndisturbed params := by
  have hfits : (s.copyComputes params).safe = s.fitsCSI privateMode .DECCRA params := by
    simp only [copyComputes, computes, fitsCSI, fitsCopy, copySource, hsafe, Bool.true_and,
      List.all_append]
  have hsame : s.fitsCSI privateMode .DECCRA params = true → s.copyComputes params = s := by
    intro htrue
    rw [← hfits] at htrue
    have heq : s.copyComputes params = { s with safe := (s.copyComputes params).safe } := rfl
    rw [heq, htrue, ← hsafe]
  show s.CopiesRectangle params (s.deccra params) ↔ _
  constructor
  · intro hcopies
    have htrue : s.fitsCSI privateMode .DECCRA params = true := by
      rw [← hfits, ← deccra_safe, Draws.safe_eq hcopies, hsafe]
    refine ⟨htrue, (copyUndisturbed_iff_moves h).2 ?_⟩
    exact (copies_iff (copyMoves_separate s params)).1
      ((copiesRectangle_iff_moves h (hsame htrue)).1 hcopies)
  · rintro ⟨htrue, hundisturbed⟩
    exact (copiesRectangle_iff_moves h (hsame htrue)).2
      ((copies_iff (copyMoves_separate s params)).2 ((copyUndisturbed_iff_moves h).1 hundisturbed))

/-- A fresh screen of one row behind two characters. -/
def twoCharacters : Screen := ((Screen.make 1 3).handleGround 97).handleGround 98

theorem twoCharacters_formed : twoCharacters.Formed :=
  ⟨⟨by decide, by decide, by decide⟩, by decide⟩

/-- The second character and what follows it, copied to the first column. -/
theorem deccra_left : twoCharacters.CopiesRectangle [1, 2, 1, 3, 1, 1, 1, 1]
    (twoCharacters.dispatchCSI false .DECCRA [1, 2, 1, 3, 1, 1, 1, 1]) :=
  (deccra_iff twoCharacters_formed (by decide) false _).2
    ⟨by decide, fun hforward => absurd hforward (by decide)⟩

/-- Both characters copied one column to the right: the first one shows three times. -/
theorem deccra_right : ¬ ∀ (s : Screen) (params : List Int), s.Formed → s.safe = true →
    s.CopiesRectangle params (s.dispatchCSI false .DECCRA params) := by
  intro h
  have hcopies := h twoCharacters [1, 1, 1, 2, 1, 1, 2, 1] twoCharacters_formed
    (by decide)
  have hcell := hcopies.becomes.cell_eq 0 2 ⟨by decide, by decide⟩
  revert hcell
  decide +kernel

end Screen

end JobAnsi
