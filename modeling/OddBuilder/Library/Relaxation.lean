import Mathlib.Data.List.Nodup
import Mathlib.Order.Bounds.Basic

/-!
# Shortest paths by relaxation

Edges with natural lengths over any vertices. Distances only fall, each to the
length of a walk; a vertex has the link of its last fall. When no edge can lower
a distance any more, the distances are shortest and the links are paths.
-/

namespace Relaxation

open Function

universe u

variable {V : Type u}

/-- The vertices of a walk from `start`, the last one first, and its length. -/
inductive Walk (edge : V → V → Nat → Prop) (start : V) : List V → Nat → Prop where
  | start : Walk edge start [start] 0
  | step {u v : V} {rest : List V} {length w : Nat} (h : Walk edge start (u :: rest) length)
      (hedge : edge u v w) : Walk edge start (v :: u :: rest) (length + w)

/-- A walk every part of which the distances have taken into account. -/
inductive Justified (edge : V → V → Nat → Prop) (start : V) (dist : V → Nat) :
    List V → Nat → Prop where
  | start (h : dist start = 0) : Justified edge start dist [start] 0
  | step {u v : V} {rest : List V} {length w : Nat}
      (h : Justified edge start dist (u :: rest) length) (hedge : edge u v w)
      (hv : dist v ≤ length + w) : Justified edge start dist (v :: u :: rest) (length + w)

/-- The length of a justified walk to the vertex that visits no vertex twice. -/
def Attained (edge : V → V → Nat → Prop) (start : V) (dist : V → Nat) (v : V) (length : Nat) :
    Prop :=
  ∃ rest, (v :: rest).Nodup ∧ Justified edge start dist (v :: rest) length

/-- No edge from a vertex with a distance below the limit lowers another one. -/
def Relaxed (edge : V → V → Nat → Prop) (limit : Nat) (dist : V → Nat) : Prop :=
  ∀ u v w, edge u v w → dist u < limit → dist v ≤ dist u + w

/-- Behind a parent whose distance is exact, the rank grows. -/
def Linked (edge : V → V → Nat → Prop) (dist : V → Nat) (parent : V → Option V) (rank : V → Nat)
    (v : V) : Prop :=
  ∃ u w, parent v = some u ∧ edge u v w ∧ dist u + w ≤ dist v ∧
    (dist u + w = dist v → rank u < rank v)

/-- The vertices that the links lead to. -/
inductive ParentPath (parent : V → Option V) : V → List V → Prop where
  | root {v : V} (h : parent v = none) : ParentPath parent v [v]
  | link {v u : V} {rest : List V} (h : parent v = some u) (hrest : ParentPath parent u rest) :
      ParentPath parent v (v :: rest)

variable {edge : V → V → Nat → Prop} {start : V} {dist dist' : V → Nat}

theorem Justified.walk {path : List V} {length : Nat} (h : Justified edge start dist path length) :
    Walk edge start path length := by
  induction h with
  | start _ => exact .start
  | step _ hedge _ ih => exact .step ih hedge

theorem Justified.mono {path : List V} {length : Nat} (h : Justified edge start dist path length)
    (hle : ∀ v, dist' v ≤ dist v) : Justified edge start dist' path length := by
  induction h with
  | start hstart =>
    have hle' := hle start
    exact .start (by omega)
  | @step u v rest length w _ hedge hv ih => exact .step ih hedge ((hle v).trans hv)

/-- A vertex on the walk is at most as far as its end. -/
theorem Justified.le_of_mem {path : List V} {length : Nat}
    (h : Justified edge start dist path length) {x : V} (hx : x ∈ path) : dist x ≤ length := by
  induction h with
  | start hstart =>
    rw [List.mem_singleton.1 hx, hstart]
  | step _ _ hv ih =>
    rcases List.mem_cons.1 hx with rfl | hx
    · exact hv
    · exact (ih hx).trans (Nat.le_add_right _ _)

theorem Attained.mono {v : V} {length : Nat} (h : Attained edge start dist v length)
    (hle : ∀ v, dist' v ≤ dist v) : Attained edge start dist' v length := by
  obtain ⟨rest, hnodup, hjustified⟩ := h
  exact ⟨rest, hnodup, hjustified.mono hle⟩

theorem Attained.le {v : V} {length : Nat} (h : Attained edge start dist v length) :
    dist v ≤ length := by
  obtain ⟨rest, -, hjustified⟩ := h
  exact hjustified.le_of_mem List.mem_cons_self

section Relax

variable [DecidableEq V]
variable {v u : V} {length w : Nat}

omit [DecidableEq V] in
/-- An edge that lowers the distance of its end leads to a vertex that is not on the walk. -/
theorem Justified.notMem {rest : List V} (h : Justified edge start dist (u :: rest) length)
    (hlt : length + w < dist v) : v ∉ u :: rest := by
  intro hv
  have hle := h.le_of_mem hv
  omega

theorem update_le {value : Nat} (h : value ≤ dist v) (x : V) :
    Function.update dist v value x ≤ dist x := by
  by_cases hx : x = v
  · subst hx
    rw [update_self]
    exact h
  · rw [update_of_ne hx]

theorem Attained.relax (h : Attained edge start dist u length) (hedge : edge u v w)
    (hlt : length + w < dist v) :
    Attained edge start (Function.update dist v (length + w)) v (length + w) := by
  obtain ⟨rest, hnodup, hjustified⟩ := h
  refine ⟨u :: rest, List.nodup_cons.2 ⟨hjustified.notMem hlt, hnodup⟩, ?_⟩
  refine .step (hjustified.mono (update_le hlt.le)) hedge ?_
  rw [update_self]

/-- A vertex that falls gets its link, and the links to it are not exact any more. -/
theorem Linked.relax {parent : V → Option V} {rank : V → Nat} (hedge : edge u v w)
    (hle : dist u ≤ length) (hlt : length + w < dist v) {x : V}
    (h : x ≠ v → Linked edge dist parent rank x) :
    Linked edge (Function.update dist v (length + w)) (Function.update parent v (some u))
      (Function.update rank v (rank u + 1)) x := by
  have hne : u ≠ v := by
    rintro rfl
    omega
  by_cases hx : x = v
  · subst hx
    refine ⟨u, w, ?_, hedge, ?_, ?_⟩
    · rw [update_self]
    · rw [update_self, update_of_ne hne]
      omega
    · intro _
      rw [update_self, update_of_ne hne]
      omega
  · obtain ⟨y, c, hparent, hyx, hdist, hrank⟩ := h hx
    refine ⟨y, c, ?_, hyx, ?_, ?_⟩
    · rw [update_of_ne hx]
      exact hparent
    · rw [update_of_ne hx]
      exact (Nat.add_le_add_right (update_le hlt.le y) c).trans hdist
    · rw [update_of_ne hx, update_of_ne hx]
      by_cases hy : y = v
      · subst hy
        rw [update_self]
        omega
      · rw [update_of_ne hy, update_of_ne hy]
        exact hrank

end Relax

section Converged

variable {limit : Nat}

/-- Below the limit a relaxed distance is at most the length of any walk. -/
theorem Relaxed.le_walk (h : Relaxed edge limit dist) (hstart : dist start = 0)
    (hlimit : 0 < limit)
    (hbelow : ∀ u v w, edge u v w → dist u < limit → dist u + w < limit) {path : List V}
    {length : Nat} (hwalk : Walk edge start path length) :
    ∀ v rest, path = v :: rest → dist v ≤ length ∧ dist v < limit := by
  induction hwalk with
  | start =>
    rintro v rest ⟨⟩
    omega
  | step _ hedge ih =>
    rintro v rest ⟨⟩
    obtain ⟨hle, hlt⟩ := ih _ _ rfl
    have hv := h _ _ _ hedge hlt
    have hsum := hbelow _ _ _ hedge hlt
    omega

/-- When the distances are relaxed, the links of a vertex are a walk of its distance. -/
theorem exists_parentPath (h : Relaxed edge limit dist) {parent : V → Option V} {rank : V → Nat}
    (hstart : dist start = 0) (hroot : parent start = none)
    (hlinked : ∀ v, v ≠ start → dist v < limit → Linked edge dist parent rank v) (v : V)
    (hv : dist v < limit) :
    ∃ rest, ParentPath parent v (v :: rest) ∧ Walk edge start (v :: rest) (dist v) ∧
      (v :: rest).Nodup ∧ ∀ x ∈ rest, rank x < rank v := by
  induction hrank : rank v using Nat.strong_induction_on generalizing v with
  | _ r ih =>
    by_cases hroot' : v = start
    · subst hroot'
      refine ⟨[], .root hroot, ?_, List.nodup_singleton _, by simp⟩
      rw [hstart]
      exact .start
    · obtain ⟨u, w, hparent, hedge, hdist, hless⟩ := hlinked v hroot' hv
      have hu : dist u < limit := by omega
      have hexact : dist u + w = dist v := le_antisymm hdist (h u v w hedge hu)
      have hlt := hless hexact
      obtain ⟨rest, hpath, hwalk, hnodup, hbelow⟩ := ih (rank u) (by omega) u hu rfl
      have hranks : ∀ x ∈ u :: rest, rank x < rank v := by
        intro x hx
        rcases List.mem_cons.1 hx with rfl | hx
        · exact hlt
        · exact (hbelow x hx).trans hlt
      refine ⟨u :: rest, .link hparent hpath, ?_, List.nodup_cons.2 ⟨?_, hnodup⟩, hrank ▸ hranks⟩
      · rw [← hexact]
        exact .step hwalk hedge
      · intro hmem
        exact lt_irrefl _ (hranks v hmem)

end Converged

end Relaxation
