import Mathlib.Algebra.BigOperators.Group.Multiset.Basic
import Mathlib.Algebra.BigOperators.Ring.Multiset
import Mathlib.Algebra.Order.BigOperators.Group.Multiset
import Mathlib.Algebra.Order.Group.Int
import Mathlib.Algebra.Order.Ring.Int

/-!
# Demand before a deadline

Jobs with a deadline and a cost. The demand of a deadline is the cost of all
jobs due by then. A test that adds up the costs in the order of the deadlines
compares every deadline with its demand, however equal deadlines are ordered.
One worker that takes the earliest deadline first, and does not interrupt a job,
is in time as long as the demand behind the job that runs is.
-/

namespace Demand

open Multiset

universe u v

variable {J : Type u} {δ : Type v} [LinearOrder δ]

/-- The cost of the jobs due by `d`. -/
def demand (deadline : J → δ) (cost : J → Int) (jobs : Multiset J) (d : δ) : Int :=
  ((jobs.filter fun j => deadline j ≤ d).map cost).sum

/-- Each prefix of the jobs costs at most what there is by the deadline of its last one. -/
def Passes (deadline : J → δ) (cost : J → Int) (supply : δ → Int) : Int → List J → Prop
  | _, [] => True
  | start, j :: jobs =>
    start + cost j ≤ supply (deadline j) ∧ Passes deadline cost supply (start + cost j) jobs

variable {deadline : J → δ} {cost : J → Int}

theorem demand_cons (j : J) (jobs : Multiset J) (d : δ) : demand deadline cost (j ::ₘ jobs) d =
    (if deadline j ≤ d then cost j else 0) + demand deadline cost jobs d := by
  unfold demand
  split
  · rename_i hle
    rw [filter_cons_of_pos (p := fun j => deadline j ≤ d) jobs hle, map_cons, sum_cons]
  · rename_i hlt
    rw [filter_cons_of_neg (p := fun j => deadline j ≤ d) jobs hlt, Int.zero_add]

theorem demand_map {K : Type*} (f : K → J) (jobs : Multiset K) (d : δ) :
    demand deadline cost (jobs.map f) d = demand (deadline ∘ f) (cost ∘ f) jobs d := by
  unfold demand
  rw [filter_map, map_map]
  rfl

/-- Costs in another unit. -/
theorem demand_mul (k : Int) (jobs : Multiset J) (d : δ) :
    demand deadline (fun j => k * cost j) jobs d = k * demand deadline cost jobs d :=
  sum_map_mul_left

theorem demand_nonneg {jobs : Multiset J} (hcost : ∀ j ∈ jobs, 0 ≤ cost j) (d : δ) :
    0 ≤ demand deadline cost jobs d := by
  refine sum_nonneg fun c hc => ?_
  obtain ⟨j, hj, rfl⟩ := mem_map.1 hc
  exact hcost j (mem_filter.1 hj).1

theorem cost_le_demand {jobs : Multiset J} (hcost : ∀ j ∈ jobs, 0 ≤ cost j) {j : J}
    (hj : j ∈ jobs) : cost j ≤ demand deadline cost jobs (deadline j) := by
  obtain ⟨rest, rfl⟩ := exists_cons_of_mem hj
  have hrest := @demand_nonneg J δ _ deadline cost rest
    (fun j' hj' => hcost j' (mem_cons_of_mem hj')) (deadline j)
  rw [demand_cons, if_pos le_rfl]
  omega

/-- The demand of jobs due later than `d` is none. -/
theorem demand_eq_zero {jobs : Multiset J} {d : δ} (h : ∀ j ∈ jobs, d < deadline j) :
    demand deadline cost jobs d = 0 := by
  unfold demand
  rw [filter_eq_nil.2 fun j hj => (h j hj).not_ge]
  rfl

theorem passes_iff {supply : δ → Int} {start : Int} {jobs : List J}
    (hsorted : jobs.Pairwise fun i j => deadline i ≤ deadline j)
    (hcost : ∀ j ∈ jobs, 0 ≤ cost j) :
    Passes deadline cost supply start jobs ↔
      ∀ j ∈ jobs, start + demand deadline cost jobs (deadline j) ≤ supply (deadline j) := by
  induction jobs generalizing start with
  | nil => simp [Passes]
  | cons j jobs ih =>
    obtain ⟨hfirst, hrest⟩ := List.pairwise_cons.1 hsorted
    have hcosts : ∀ k ∈ jobs, 0 ≤ cost k := fun k hk => hcost k (List.mem_cons_of_mem _ hk)
    have hlater : ∀ k ∈ jobs, demand deadline cost (j :: jobs : List J) (deadline k) =
        cost j + demand deadline cost jobs (deadline k) := by
      intro k hk
      rw [← cons_coe, demand_cons, if_pos (hfirst k hk)]
    have hself : demand deadline cost (j :: jobs : List J) (deadline j) =
        cost j + demand deadline cost jobs (deadline j) := by
      rw [← cons_coe, demand_cons, if_pos le_rfl]
    have hnonneg := @demand_nonneg J δ _ deadline cost jobs hcosts (deadline j)
    rw [Passes, ih hrest hcosts, List.forall_mem_cons]
    constructor
    · rintro ⟨hhead, htail⟩
      constructor
      · by_cases htie : ∃ k ∈ jobs, deadline k ≤ deadline j
        · -- A later job with the same deadline has been tested with all of them.
          obtain ⟨k, hk, hle⟩ := htie
          have hsame := le_antisymm hle (hfirst k hk)
          have hlast := htail k hk
          rw [hsame] at hlast
          omega
        · have hnone : demand deadline cost jobs (deadline j) = 0 :=
            demand_eq_zero fun k hk => lt_of_not_ge fun hle => htie ⟨k, hk, hle⟩
          omega
      · intro k hk
        have := htail k hk
        rw [hlater k hk]
        omega
    · rintro ⟨hhead, htail⟩
      refine ⟨by omega, fun k hk => ?_⟩
      have := htail k hk
      rw [hlater k hk] at this
      omega

section Worker

variable {due : J → Int}
variable {jobs : Multiset J}

/-- All jobs are done in time when the work begins at `free`. -/
def InTime (due : J → Int) (cost : J → Int) (free : Int) (jobs : Multiset J) : Prop :=
  ∀ j ∈ jobs, free + demand due cost jobs (due j) ≤ due j

theorem InTime.mono {free free' : Int} (h : InTime due cost free jobs) (hle : free' ≤ free) :
    InTime due cost free' jobs := by
  intro j hj
  have := h j hj
  omega

/-- The earliest job ends before its deadline, and the others wait for it. -/
theorem InTime.first {now : Int} {j : J} (hcost : ∀ k ∈ j ::ₘ jobs, 0 ≤ cost k)
    (h : InTime due cost now (j ::ₘ jobs)) (hfirst : ∀ k ∈ jobs, due j ≤ due k) :
    now + cost j ≤ due j ∧ InTime due cost (now + cost j) jobs := by
  constructor
  · have hj := h j (mem_cons_self _ _)
    have hdemand := @cost_le_demand J Int _ due cost _ hcost j (mem_cons_self j jobs)
    omega
  · intro k hk
    have hwait := h k (mem_cons_of_mem hk)
    rw [demand_cons, if_pos (hfirst k hk)] at hwait
    omega

/-- A job that comes while another one runs: later deadlines are safe by a test that counts the
whole running job, earlier ones only if they can wait until it ends. -/
theorem InTime.arrive {now free : Int} {running j : J} (hfree : free ≤ now + cost running)
    (h : InTime due cost free jobs)
    (htest : ∀ k ∈ j ::ₘ jobs, now + demand due cost (running ::ₘ j ::ₘ jobs) (due k) ≤ due k)
    (hwait : ∀ k ∈ j ::ₘ jobs, due j ≤ due k → due k < due running →
      free + demand due cost (j ::ₘ jobs) (due k) ≤ due k) : InTime due cost free (j ::ₘ jobs) := by
  intro k hk
  rcases lt_or_ge (due k) (due running) with hbefore | hbehind
  · rcases lt_or_ge (due k) (due j) with hearlier | hlater
    · -- The new job is due later and does not count.
      have hmem : k ∈ jobs := by
        rcases mem_cons.1 hk with rfl | hk
        · exact absurd hearlier (lt_irrefl _)
        · exact hk
      rw [demand_cons, if_neg hearlier.not_ge, Int.zero_add]
      exact h k hmem
    · exact hwait k hk hlater hbefore
  · have htested := htest k hk
    rw [demand_cons] at htested
    omega

end Worker

end Demand
