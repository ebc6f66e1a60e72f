import Mathlib.Data.Finset.Card
import Mathlib.Data.Nat.Find
import Mathlib.Order.Bounds.Basic

/-!
# Levels of a graph

The walks from one vertex by their numbers of edges. A level has the vertices
whose shortest walk has that many. The next level is what edges lead to from a
level and no level has so far.
-/

namespace Levels

universe u

variable {V : Type u} (edge : V → V → Prop) (start : V)

/-- A walk of so many edges from the start to the vertex. -/
inductive Walk : Nat → V → Prop where
  | start : Walk 0 start
  | step {k : Nat} {u v : V} (h : Walk k u) (hedge : edge u v) : Walk (k + 1) v

/-- The vertex is on the level. -/
abbrev At (k : Nat) (v : V) : Prop := IsLeast {k | Walk edge start k v} k

variable {edge start} {j k : Nat} {u v : V}

theorem Walk.exists_at (h : Walk edge start k v) : ∃ j, j ≤ k ∧ At edge start j v := by
  classical
  have hwalk : ∃ k, Walk edge start k v := ⟨k, h⟩
  exact ⟨Nat.find hwalk, Nat.find_min' hwalk h, Nat.find_spec hwalk, fun j hj => Nat.find_min' hwalk hj⟩

theorem At.walk (h : At edge start k v) : Walk edge start k v := h.1

theorem at_start : At edge start 0 start := ⟨.start, fun _ _ => Nat.zero_le _⟩

theorem at_zero : At edge start 0 v ↔ v = start := by
  constructor
  · rintro ⟨hwalk⟩
    cases hwalk
    rfl
  · rintro rfl
    exact at_start

/-- An edge leads at most to the next level. -/
theorem At.step (h : At edge start k u) (hedge : edge u v) : ∃ j, j ≤ k + 1 ∧ At edge start j v :=
  (h.walk.step hedge).exists_at

/-- A vertex of a later level has an edge from the level before. -/
theorem At.pred (h : At edge start (k + 1) v) : ∃ u, At edge start k u ∧ edge u v := by
  obtain ⟨hwalk, hleast⟩ := h
  cases hwalk with
  | @step _ u _ hu hedge =>
    obtain ⟨j, hj, hat⟩ := hu.exists_at
    have hle : k + 1 ≤ j + 1 := hleast (hat.walk.step hedge)
    obtain rfl : j = k := by omega
    exact ⟨u, hat, hedge⟩

/-- The next level. -/
theorem at_succ_iff :
    At edge start (k + 1) v ↔ (∃ u, At edge start k u ∧ edge u v) ∧ ∀ j, j ≤ k → ¬ At edge start j v := by
  constructor
  · intro h
    refine ⟨h.pred, ?_⟩
    intro j hj hat
    have heq := h.unique hat
    omega
  · rintro ⟨⟨u, hu, hedge⟩, hnone⟩
    obtain ⟨j, hj, hat⟩ := hu.step hedge
    have hlt : ¬ j ≤ k := fun hle => hnone j hle hat
    obtain rfl : j = k + 1 := by omega
    exact hat

/-- Below a level that has a vertex every level has one. -/
theorem At.below (h : At edge start k v) (hj : j ≤ k) : ∃ u, At edge start j u := by
  induction k generalizing v with
  | zero =>
    obtain rfl := Nat.le_zero.1 hj
    exact ⟨v, h⟩
  | succ k ih =>
    rcases Nat.le_succ_iff.1 hj with hle | rfl
    · obtain ⟨u, hu, -⟩ := h.pred
      exact ih hu hle
    · exact ⟨v, h⟩

/-- Where a level is empty, all later ones are. -/
theorem At.lt_of_empty (h : At edge start j v) (hempty : ∀ u, ¬ At edge start k u) : j < k := by
  by_contra hle
  obtain ⟨u, hu⟩ := h.below (Nat.le_of_not_lt hle)
  exact hempty u hu

/-- There are at most as many levels as vertices. -/
theorem At.lt_card (h : At edge start k v) {vertices : Finset V}
    (hmem : ∀ j u, At edge start j u → u ∈ vertices) : k < vertices.card := by
  have : Nonempty V := ⟨v⟩
  choose! f hf using fun j (hj : j ≤ k) => h.below hj
  have hle : (Finset.range (k + 1)).card ≤ vertices.card := by
    apply Finset.card_le_card_of_injOn f
    · intro j hj
      exact hmem j _ (hf j (Nat.le_of_lt_succ (Finset.mem_range.1 hj)))
    · intro i hi j hj heq
      have hat := hf i (Nat.le_of_lt_succ (Finset.mem_range.1 hi))
      rw [heq] at hat
      exact hat.unique (hf j (Nat.le_of_lt_succ (Finset.mem_range.1 hj)))
  rw [Finset.card_range] at hle
  exact hle

end Levels
