import Mathlib.Order.Lattice
import Mathlib.Data.List.Infix

/-!
# Greedy merging of adjacent pairs

A rule gives some pairs of symbols a rank and a symbol that replaces them. Greedy
merging replaces, as long as any adjacent pair of the word has a rule, the
leftmost pair among those of the lowest rank. Symbols and ranks are arbitrary.
-/

namespace PairMerging

open List

variable {α ρ : Type} [LinearOrder ρ]
variable {w u v : List α} {a b c : α} {r : ρ}

/-- The place, the rank and the replacement of the leftmost adjacent pair of the lowest rank. -/
def best (rule : α → α → Option (ρ × α)) : List α → Option (Nat × ρ × α)
  | a :: b :: w =>
    match rule a b, best rule (b :: w) with
    | none, none => none
    | none, some (i, r, c) => some (i + 1, r, c)
    | some (r, c), none => some (0, r, c)
    | some (r, c), some (i, r', c') => if r ≤ r' then some (0, r, c) else some (i + 1, r', c')
  | _ => none

def mergeAt (w : List α) (i : Nat) (c : α) : List α := w.take i ++ c :: w.drop (i + 2)

/-- At most `n` merges, one after the other. -/
def mergeSteps (rule : α → α → Option (ρ × α)) : Nat → List α → List α
  | 0, w => w
  | n + 1, w =>
    match best rule w with
    | none => w
    | some (i, _, c) => mergeSteps rule n (mergeAt w i c)

/-- Merging until no adjacent pair has a rule; every merge makes the word shorter. -/
def merge (rule : α → α → Option (ρ × α)) (w : List α) : List α := mergeSteps rule w.length w

variable {rule : α → α → Option (ρ × α)}

/-- The pair that `best` answers stands at the place it answers. -/
theorem best_sound {i : Nat} (h : best rule w = some (i, r, c)) :
    ∃ u a b v, w = u ++ a :: b :: v ∧ u.length = i ∧ rule a b = some (r, c) := by
  induction w generalizing i r c with
  | nil => cases h
  | cons a w ih =>
    cases w with
    | nil => cases h
    | cons b w =>
      simp only [best] at h
      split at h
      · cases h
      · rename_i j r' c' _ hrest
        cases h
        obtain ⟨u, x, y, v, hw, hlen, hrule⟩ := ih hrest
        exact ⟨a :: u, x, y, v, by rw [hw]; rfl, by rw [length_cons, hlen], hrule⟩
      · rename_i hrule _
        cases h
        exact ⟨[], a, b, w, rfl, rfl, hrule⟩
      · rename_i hrule hrest
        split at h
        · cases h
          exact ⟨[], a, b, w, rfl, rfl, hrule⟩
        · cases h
          obtain ⟨u, x, y, v, hw, hlen, hrule⟩ := ih hrest
          exact ⟨a :: u, x, y, v, by rw [hw]; rfl, by rw [length_cons, hlen], hrule⟩

/-- A pair whose rank is below that of every pair before it and at most that of every pair
after it is the one `best` answers. -/
theorem best_of_split (hrule : rule a b = some (r, c))
    (before : ∀ x y s t r' c', u ++ [a] = s ++ x :: y :: t → rule x y = some (r', c') → r < r')
    (after : ∀ x y s t r' c', b :: v = s ++ x :: y :: t → rule x y = some (r', c') → r ≤ r') :
    best rule (u ++ a :: b :: v) = some (u.length, r, c) := by
  induction u with
  | nil =>
    simp only [nil_append, best, hrule]
    cases hrest : best rule (b :: v) with
    | none => rfl
    | some found =>
      obtain ⟨i, r', c'⟩ := found
      obtain ⟨s, x, y, t, hw, -, hxy⟩ := best_sound hrest
      exact if_pos (after x y s t r' c' hw hxy)
  | cons x u ih =>
    have hrest := ih (fun x' y s t r' c' hs => before x' y (x :: s) t r' c' (by
      rw [cons_append, hs, cons_append]))
    obtain ⟨y, w, hy⟩ : ∃ y w, u ++ a :: b :: v = y :: w := by
      cases u with
      | nil => exact ⟨a, b :: v, rfl⟩
      | cons y u => exact ⟨y, u ++ a :: b :: v, rfl⟩
    have hfirst : ∃ t, x :: u ++ [a] = [] ++ x :: y :: t := by
      cases u with
      | nil =>
        obtain ⟨rfl⟩ := List.cons.inj hy
        exact ⟨[], rfl⟩
      | cons z u =>
        obtain ⟨rfl⟩ := List.cons.inj hy
        exact ⟨u ++ [a], rfl⟩
    obtain ⟨t, ht⟩ := hfirst
    rw [hy] at hrest
    rw [cons_append, hy]
    simp only [best, hrest]
    cases hxy : rule x y with
    | none => rfl
    | some found =>
      obtain ⟨r', c'⟩ := found
      exact if_neg (not_le.mpr (before x y [] t r' c' ht hxy))

theorem best_eq_none (h : ∀ u a b v, w = u ++ a :: b :: v → rule a b = none) :
    best rule w = none := by
  cases hbest : best rule w with
  | none => rfl
  | some found =>
    obtain ⟨u, a, b, v, hw, -, hrule⟩ := best_sound hbest
    rw [h u a b v hw] at hrule
    cases hrule

/-- The best pair of a longer word exists when one exists at its front or behind it. -/
theorem best_cons_ne_none {x y : α} (h : rule x y ≠ none ∨ best rule (y :: w) ≠ none) :
    best rule (x :: y :: w) ≠ none := by
  simp only [best]
  cases hxy : rule x y with
  | none =>
    cases hrest : best rule (y :: w) with
    | none =>
      rcases h with h | h
      · exact absurd hxy h
      · exact absurd hrest h
    | some found => simp
  | some pair =>
    cases hrest : best rule (y :: w) with
    | none => simp
    | some found =>
      dsimp only
      split_ifs
      · exact Option.some_ne_none _
      · exact Option.some_ne_none _

theorem best_ne_none (h : rule a b ≠ none) : best rule (u ++ a :: b :: v) ≠ none := by
  induction u with
  | nil => exact best_cons_ne_none (Or.inl h)
  | cons x u ih =>
    cases u with
    | nil => exact best_cons_ne_none (Or.inr ih)
    | cons y u => exact best_cons_ne_none (Or.inr ih)

@[simp] theorem mergeAt_split (u v : List α) (a b c : α) :
    mergeAt (u ++ a :: b :: v) u.length c = u ++ c :: v := by
  simp [mergeAt]

/-- As many merges as the word has symbols are as good as any greater number. -/
theorem mergeSteps_stable {n : Nat} (h : w.length ≤ n) : mergeSteps rule n w = merge rule w := by
  induction n generalizing w with
  | zero => rw [merge, Nat.le_zero.mp h]
  | succ n ih =>
    cases hbest : best rule w with
    | none => cases w <;> simp [merge, mergeSteps, hbest]
    | some found =>
      obtain ⟨i, r, c⟩ := found
      obtain ⟨u, a, b, v, rfl, rfl, -⟩ := best_sound hbest
      have hlen : (u ++ a :: b :: v).length = (u ++ c :: v).length + 1 := by
        simp only [length_append, length_cons]
        omega
      rw [merge, hlen]
      simp only [mergeSteps, hbest, mergeAt_split]
      exact ih (by omega)

theorem merge_of_best (h : best rule (u ++ a :: b :: v) = some (u.length, r, c)) :
    merge rule (u ++ a :: b :: v) = merge rule (u ++ c :: v) := by
  have hlen : (u ++ a :: b :: v).length = (u ++ c :: v).length + 1 := by
    simp only [length_append, length_cons]
    omega
  rw [merge, hlen]
  simp only [mergeSteps, h, mergeAt_split]
  exact mergeSteps_stable (Nat.le_refl _)

theorem merge_of_none (h : best rule w = none) : merge rule w = w := by
  cases w with
  | nil => rfl
  | cons a w => simp [merge, mergeSteps, h]

/-- What every single merge keeps, the whole merging keeps. -/
theorem merge_keeps {P : List α → Prop}
    (step : ∀ u a b v r c, rule a b = some (r, c) → P (u ++ a :: b :: v) → P (u ++ c :: v))
    (h : P w) : P (merge rule w) := by
  suffices steps : ∀ n w, P w → P (mergeSteps rule n w) from steps _ _ h
  intro n
  induction n with
  | zero => exact fun _ h => h
  | succ n ih =>
    intro w h
    cases hbest : best rule w with
    | none => simpa [mergeSteps, hbest] using h
    | some found =>
      obtain ⟨i, r, c⟩ := found
      obtain ⟨u, a, b, v, rfl, rfl, hrule⟩ := best_sound hbest
      simp only [mergeSteps, hbest, mergeAt_split]
      exact ih _ (step u a b v r c hrule h)

/-- Merging never makes a word longer. -/
theorem merge_length_le (w : List α) : (merge rule w).length ≤ w.length := by
  refine merge_keeps (P := fun w' => w'.length ≤ w.length) ?_ (Nat.le_refl _)
  intro u a b v r c _ h
  simp only [length_append, length_cons] at h ⊢
  omega

/-- Merging shortens every word that has a pair with a rule. -/
theorem merge_length_lt (h : rule a b ≠ none) :
    (merge rule (u ++ a :: b :: v)).length < (u ++ a :: b :: v).length := by
  cases hbest : best rule (u ++ a :: b :: v) with
  | none => exact absurd hbest (best_ne_none h)
  | some found =>
    obtain ⟨i, r, c⟩ := found
    obtain ⟨u', a', b', v', hw, hlen, -⟩ := best_sound hbest
    rw [hw] at hbest ⊢
    subst hlen
    have hle : (merge rule (u' ++ c :: v')).length ≤ (u' ++ c :: v').length := merge_length_le _
    rw [merge_of_best hbest]
    simp only [length_append, length_cons] at hle ⊢
    omega

variable {β : Type}

/-- A rule for symbols with labels, which joins the labels of a pair. -/
def labelled (rule : α → α → Option (ρ × α)) (join : β → β → β) (x y : β × α) : Option (ρ × β × α) :=
  (rule x.2 y.2).map fun found => (found.1, join x.1 y.1, found.2)

variable (rule) in
theorem best_labelled (join : β → β → β) (w : List (β × α)) :
    (best (labelled rule join) w).map (fun found => (found.1, found.2.1, found.2.2.2)) =
      best rule (w.map Prod.snd) := by
  induction w with
  | nil => rfl
  | cons x w ih =>
    cases w with
    | nil => rfl
    | cons y w =>
      rw [map_cons] at ih
      rw [map_cons, map_cons]
      simp only [best, labelled, ← ih]
      cases rule x.2 y.2 with
      | none => cases best (labelled rule join) (y :: w) <;> rfl
      | some found =>
        cases best (labelled rule join) (y :: w) with
        | none => rfl
        | some later =>
          simp only [Option.map_some]
          split <;> rfl

/-- Labels do not change what is merged. -/
theorem merge_labelled (join : β → β → β) (w : List (β × α)) :
    (merge (labelled rule join) w).map Prod.snd = merge rule (w.map Prod.snd) := by
  suffices steps : ∀ n w, (mergeSteps (labelled rule join) n w).map Prod.snd =
      mergeSteps rule n (w.map Prod.snd) by
    rw [merge, merge, length_map]
    exact steps _ w
  intro n
  induction n with
  | zero => exact fun _ => rfl
  | succ n ih =>
    intro w
    have hbest := best_labelled rule join w
    rw [mergeSteps, mergeSteps, ← hbest]
    cases best (labelled rule join) w with
    | none => rfl
    | some found =>
      dsimp only [Option.map_some]
      rw [ih, mergeAt, mergeAt, map_append, map_cons, map_take, map_drop]

end PairMerging
