import Mathlib.Algebra.Order.Group.Defs
import Mathlib.Algebra.BigOperators.Group.List.Basic
import Mathlib.Data.List.Infix

/-!
# Best paths by forward relaxation

Labelled edges lead forward between positions, and a label has a weight. The positions
are taken in order, and from each one whose score is above a floor all edges are
relaxed. Paths every part of which stays above the floor are live: a score above the
floor is the best total of the live paths to its position, and the links spell a path
with that total.
-/

namespace Viterbi

open Function

variable {L S : Type} [AddCommGroup S]

/-- The labels of a path from the first position on. -/
inductive Path (edge : Nat → Nat → L → Prop) : Nat → List L → Prop
  | start : Path edge 0 []
  | step {i j : Nat} {labels : List L} {l : L} (h : Path edge i labels) (hedge : edge i j l) :
    Path edge j (labels ++ [l])

/-- The labels along the links, from the first position on. -/
inductive Trace (link : Nat → Option (Nat × L)) : Nat → List L → Prop
  | start : Trace link 0 []
  | step {i j : Nat} {labels : List L} {l : L} (h : Trace link i labels) (hlink : link j = some (i, l)) :
    Trace link j (labels ++ [l])

def total (weight : L → S) (labels : List L) : S := (labels.map weight).sum

@[simp] theorem total_concat (weight : L → S) (labels : List L) (l : L) :
    total weight (labels ++ [l]) = total weight labels + weight l := by
  simp [total]

variable [LinearOrder S]

/-- Every part of the labels from the first one on weighs more than the floor. -/
def Live (weight : L → S) (floor : S) (labels : List L) : Prop :=
  ∀ part, part <+: labels → floor < total weight part

theorem Live.total {weight : L → S} {floor : S} {labels : List L} (h : Live weight floor labels) :
    floor < total weight labels :=
  h labels List.prefix_rfl

theorem live_concat {weight : L → S} {floor : S} {labels : List L} {l : L} :
    Live weight floor (labels ++ [l]) ↔
      Live weight floor labels ∧ floor < Viterbi.total weight (labels ++ [l]) := by
  constructor
  · intro h
    exact ⟨fun part hpart => h part (hpart.trans (List.prefix_append _ _)), h.total⟩
  · rintro ⟨hlive, habove⟩ part hpart
    rcases List.prefix_concat_iff.mp hpart with rfl | hpart
    · exact habove
    · exact hlive part hpart

/-- The positions below `k` are done, and of the edges from `k` those that `done` says. -/
structure Forward (edge : Nat → Nat → L → Prop) (weight : L → S) (floor : S) (score : Nat → S)
    (link : Nat → Option (Nat × L)) (k : Nat) (done : Nat → L → Prop) : Prop where
  start : score 0 = 0
  linked : ∀ j i l, link j = some (i, l) →
    i < j ∧ i ≤ k ∧ floor < score i ∧ edge i j l ∧ score j = score i + weight l
  unlinked : ∀ j, link j = none → j = 0 ∨ score j ≤ floor
  relaxed : ∀ i j l, i < k → floor < score i → edge i j l → score i + weight l ≤ score j
  relaxing : ∀ j l, done j l → floor < score k → edge k j l → score k + weight l ≤ score j

namespace Forward

variable {edge : Nat → Nat → L → Prop} {weight : L → S} {floor : S} {score : Nat → S}
  {link : Nat → Option (Nat × L)} {k n : Nat} {done : Nat → L → Prop}

/-- Before the first position only its own score is above the floor. -/
theorem init {low : S} (hlow : low ≤ floor) :
    Forward edge weight floor (Function.update (fun _ => low) 0 0) (fun _ => none) 0
      fun _ _ => False where
  start := update_self _ _ _
  linked := fun _ _ _ h => nomatch h
  unlinked := by
    intro j _
    rcases Nat.eq_zero_or_pos j with rfl | hpos
    · exact Or.inl rfl
    · rw [update_of_ne (Nat.ne_of_gt hpos)]
      exact Or.inr hlow
  relaxed := fun _ _ _ h => absurd h (Nat.not_lt_zero _)
  relaxing := fun _ _ h => h.elim

/-- An edge that makes a later score better. -/
theorem improve (h : Forward edge weight floor score link k done) {j : Nat} {l : L}
    (forward : k < j) (hedge : edge k j l) (above : floor < score k)
    (better : score j < score k + weight l) :
    Forward edge weight floor (Function.update score j (score k + weight l))
      (Function.update link j (some (k, l))) k fun j' l' => done j' l' ∨ j' = j ∧ l' = l := by
  have hkeep : ∀ i, i ≤ k → Function.update score j (score k + weight l) i = score i :=
    fun i hi => update_of_ne (Nat.ne_of_lt (Nat.lt_of_le_of_lt hi forward)) _ _
  -- scores only rise
  have hrise : ∀ i, score i ≤ Function.update score j (score k + weight l) i := by
    intro i
    by_cases hi : i = j
    · subst hi
      rw [update_self]
      exact le_of_lt better
    · rw [update_of_ne hi]
  refine ⟨?_, ?_, ?_, ?_, ?_⟩
  · rw [hkeep 0 (Nat.zero_le _)]
    exact h.start
  · intro j' i l' hlink
    by_cases hj : j' = j
    · subst hj
      rw [update_self] at hlink
      cases hlink
      rw [hkeep k (Nat.le_refl _), update_self]
      exact ⟨forward, Nat.le_refl _, above, hedge, rfl⟩
    · rw [update_of_ne hj] at hlink
      obtain ⟨hlt, hle, hfloor, hedge', hscore⟩ := h.linked j' i l' hlink
      rw [hkeep i hle, update_of_ne hj]
      exact ⟨hlt, hle, hfloor, hedge', hscore⟩
  · intro j' hlink
    by_cases hj : j' = j
    · rw [hj, update_self] at hlink
      cases hlink
    · rw [update_of_ne hj] at hlink
      rw [update_of_ne hj]
      exact h.unlinked j' hlink
  · intro i j' l' hi hfloor hedge'
    rw [hkeep i (Nat.le_of_lt hi)] at hfloor ⊢
    exact le_trans (h.relaxed i j' l' hi hfloor hedge') (hrise j')
  · intro j' l' hdone hfloor hedge'
    rw [hkeep k (Nat.le_refl _)] at hfloor ⊢
    rcases hdone with hdone | ⟨rfl, rfl⟩
    · exact le_trans (h.relaxing j' l' hdone hfloor hedge') (hrise j')
    · rw [update_self]

/-- An edge that does not. -/
theorem keep (h : Forward edge weight floor score link k done) {j : Nat} {l : L}
    (enough : score k + weight l ≤ score j) :
    Forward edge weight floor score link k fun j' l' => done j' l' ∨ j' = j ∧ l' = l := by
  refine ⟨h.start, h.linked, h.unlinked, h.relaxed, ?_⟩
  rintro j' l' (hdone | ⟨rfl, rfl⟩) hfloor hedge
  · exact h.relaxing j' l' hdone hfloor hedge
  · exact enough

theorem weaken {done' : Nat → L → Prop} (h : Forward edge weight floor score link k done)
    (hdone : ∀ j l, done' j l → done j l) : Forward edge weight floor score link k done' :=
  ⟨h.start, h.linked, h.unlinked, h.relaxed, fun j l hj => h.relaxing j l (hdone j l hj)⟩

/-- A position is done when its edges are, or when its score is not above the floor. -/
theorem next (h : Forward edge weight floor score link k done)
    (all : floor < score k → ∀ j l, edge k j l → done j l) :
    Forward edge weight floor score link (k + 1) fun _ _ => False := by
  refine ⟨h.start, fun j i l hlink => ?_, h.unlinked, fun i j l hi hfloor hedge => ?_,
    fun _ _ hdone => hdone.elim⟩
  · obtain ⟨hlt, hle, hrest⟩ := h.linked j i l hlink
    exact ⟨hlt, Nat.le_succ_of_le hle, hrest⟩
  · rcases Nat.lt_succ_iff_lt_or_eq.mp hi with hi | rfl
    · exact h.relaxed i j l hi hfloor hedge
    · exact h.relaxing j l (all hfloor j l hedge) hfloor hedge

/-- A score above the floor is the total of a live path that the links spell. -/
theorem traced (h : Forward edge weight floor score link k done) (hzero : floor < 0) (j : Nat)
    (above : floor < score j) :
    ∃ labels, Trace link j labels ∧ Path edge j labels ∧ Live weight floor labels ∧
      total weight labels = score j := by
  induction j using Nat.strong_induction_on with
  | _ j ih =>
    cases hlink : link j with
    | none =>
      rcases h.unlinked j hlink with rfl | hle
      · refine ⟨[], .start, .start, fun part hpart => ?_, h.start.symm⟩
        rw [List.prefix_nil.mp hpart]
        exact hzero
      · exact absurd above (not_lt.mpr hle)
    | some found =>
      obtain ⟨i, l⟩ := found
      obtain ⟨hlt, -, hfloor, hedge, hscore⟩ := h.linked j i l hlink
      obtain ⟨labels, htrace, hpath, hlive, htotal⟩ := ih i hlt hfloor
      have hsum : total weight (labels ++ [l]) = score j := by rw [total_concat, htotal, hscore]
      refine ⟨labels ++ [l], .step htrace hlink, .step hpath hedge, ?_, hsum⟩
      rw [live_concat, hsum]
      exact ⟨hlive, above⟩

variable [IsOrderedAddMonoid S]

/-- A path weighs at most the score of its end, if all scores before are above the floor. -/
theorem path_le (h : Forward edge weight floor score link n done)
    (forward : ∀ i j l, edge i j l → i < j) {j : Nat} (hj : j ≤ n)
    (above : ∀ i, i < j → floor < score i) {labels : List L} (hpath : Path edge j labels) :
    total weight labels ≤ score j := by
  induction hpath with
  | start => exact le_of_eq h.start.symm
  | @step i j labels l hpath hedge ih =>
    have hlt := forward i j l hedge
    have hbefore := ih (by omega) fun m hm => above m (by omega)
    rw [total_concat]
    exact le_trans (add_le_add_left hbefore (weight l)) (h.relaxed i j l (by omega) (above i hlt) hedge)

/-- A live path weighs at most the score of its end. -/
theorem live_le (h : Forward edge weight floor score link n done)
    (forward : ∀ i j l, edge i j l → i < j) {j : Nat} (hj : j ≤ n) {labels : List L}
    (hpath : Path edge j labels) (hlive : Live weight floor labels) :
    total weight labels ≤ score j := by
  induction hpath with
  | start => exact le_of_eq h.start.symm
  | @step i j labels l hpath hedge ih =>
    obtain ⟨hrest⟩ := live_concat.mp hlive
    have hlt := forward i j l hedge
    have hbefore := ih (by omega) hrest
    have habove : floor < score i := lt_of_lt_of_le hrest.total hbefore
    rw [total_concat]
    exact le_trans (add_le_add_left hbefore (weight l)) (h.relaxed i j l (by omega) habove hedge)

/-- If a path to each position weighs more than the floor, then so does each score. -/
theorem reached (h : Forward edge weight floor score link n done)
    (forward : ∀ i j l, edge i j l → i < j)
    (paths : ∀ i, i ≤ n → ∃ labels, Path edge i labels ∧ floor < total weight labels) (j : Nat)
    (hj : j ≤ n) : floor < score j := by
  induction j using Nat.strong_induction_on with
  | _ j ih =>
    obtain ⟨labels, hpath, habove⟩ := paths j hj
    exact lt_of_lt_of_le habove (h.path_le forward hj (fun i hi => ih i hi (by omega)) hpath)

end Forward

end Viterbi
