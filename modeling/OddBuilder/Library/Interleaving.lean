import Mathlib.Algebra.BigOperators.Group.Multiset.Basic
import Mathlib.Algebra.Order.BigOperators.Group.Multiset
import Mathlib.Algebra.Order.Ring.Int
import Mathlib.Logic.Relation

/-!
# Interleaved threads

Any number of threads over one shared state. A thread takes atomic steps; which
thread is next is not fixed. A step turns the thread into a collection of
threads: an empty one when it ends, itself and others when it starts others.
Who arrives from outside is a thread that stays and starts others.
-/

namespace Interleaving

open Multiset

universe u v

variable {σ : Type u} {τ : Type v}

structure Config (σ : Type u) (τ : Type v) where
  shared : σ
  threads : Multiset τ

/-- `next s t s' born`: in the shared state `s` the thread `t` can take a step to `s'` and
`born`. -/
abbrev LocalStep (σ : Type u) (τ : Type v) := σ → τ → σ → Multiset τ → Prop

/-- What a schedule allows: in the shared state, with these other threads, the thread may go. -/
abbrev Guard (σ : Type u) (τ : Type v) := σ → τ → Multiset τ → Prop

inductive StepWhere (guard : Guard σ τ) (next : LocalStep σ τ) :
    Config σ τ → Config σ τ → Prop where
  | turn {s s' : σ} {t : τ} {born : Multiset τ} (others : Multiset τ) (hguard : guard s t others)
      (h : next s t s' born) : StepWhere guard next ⟨s, t ::ₘ others⟩ ⟨s', born + others⟩

/-- What the threads can do from `start` when every step is one that the schedule allows. -/
def ReachableWhere (guard : Guard σ τ) (next : LocalStep σ τ) (start c : Config σ τ) : Prop :=
  Relation.ReflTransGen (StepWhere guard next) start c

/-- A step of any thread. -/
abbrev Step (next : LocalStep σ τ) : Config σ τ → Config σ τ → Prop :=
  StepWhere (fun _ _ _ => True) next

/-- What the threads can do from `start`, in any order of their steps. -/
abbrev Reachable (next : LocalStep σ τ) (start c : Config σ τ) : Prop :=
  ReachableWhere (fun _ _ _ => True) next start c

variable {guard : Guard σ τ} {next : LocalStep σ τ}

theorem Reachable.refl (start : Config σ τ) : Reachable next start start :=
  Relation.ReflTransGen.refl

/-- What a schedule allows can happen in some order. -/
theorem ReachableWhere.reachable {start c : Config σ τ} (h : ReachableWhere guard next start c) :
    Reachable next start c := by
  induction h with
  | refl => exact Relation.ReflTransGen.refl
  | tail _ hlast ih =>
    cases hlast with
    | turn others _ hnext => exact Relation.ReflTransGen.tail ih (.turn others trivial hnext)

theorem ReachableWhere.turn {start : Config σ τ} {s s' : σ} {t : τ} {threads born : Multiset τ}
    (h : ReachableWhere guard next start ⟨s, threads⟩) (others : Multiset τ)
    (hthreads : threads = t ::ₘ others) (hguard : guard s t others) (hnext : next s t s' born) :
    ReachableWhere guard next start ⟨s', born + others⟩ := by
  subst hthreads
  exact Relation.ReflTransGen.tail h (StepWhere.turn others hguard hnext)

theorem Reachable.turn {start : Config σ τ} {s s' : σ} {t : τ} {threads born : Multiset τ}
    (h : Reachable next start ⟨s, threads⟩) (others : Multiset τ)
    (hthreads : threads = t ::ₘ others) (hnext : next s t s' born) :
    Reachable next start ⟨s', born + others⟩ :=
  ReachableWhere.turn h others hthreads trivial hnext

theorem exists_step {c : Config σ τ} {t : τ} {s' : σ} {born : Multiset τ} (ht : t ∈ c.threads)
    (hnext : next c.shared t s' born) : ∃ c', Step next c c' := by
  obtain ⟨others, hothers⟩ := exists_cons_of_mem ht
  obtain ⟨shared⟩ := c
  subst hothers
  exact ⟨_, StepWhere.turn others trivial hnext⟩

/-- What holds at the start and is kept by every allowed step holds in every run. -/
theorem ReachableWhere.invariant {Inv : σ → Multiset τ → Prop} {start c : Config σ τ}
    (h : ReachableWhere guard next start c) (hstart : Inv start.shared start.threads)
    (hstep : ∀ s t s' born others, Inv s (t ::ₘ others) → guard s t others → next s t s' born →
      Inv s' (born + others)) : Inv c.shared c.threads := by
  induction h with
  | refl => exact hstart
  | tail _ hlast ih =>
    cases hlast with
    | turn others hguard hnext => exact hstep _ _ _ _ _ ih hguard hnext

theorem Reachable.invariant {Inv : σ → Multiset τ → Prop} {start c : Config σ τ}
    (h : Reachable next start c) (hstart : Inv start.shared start.threads)
    (hstep : ∀ s t s' born others, Inv s (t ::ₘ others) → next s t s' born →
      Inv s' (born + others)) : Inv c.shared c.threads :=
  ReachableWhere.invariant h hstart fun s t s' born others hinv _ => hstep s t s' born others hinv

/-- Steps that keep an invariant and lower a measure come to an end. -/
theorem acc_of_lowers {κ μ : Type*} {less : μ → μ → Prop} (hless : WellFounded less)
    (measure : κ → μ) (Inv : κ → Prop) {step : κ → κ → Prop}
    (hstep : ∀ c c', Inv c → step c c' → Inv c' ∧ less (measure c') (measure c)) {c : κ}
    (h : Inv c) : Acc (fun c' c => step c c') c := by
  induction hmeasure : measure c using hless.induction generalizing c with
  | _ value ih =>
    constructor
    intro c' hnext
    obtain ⟨hinv, hlower⟩ := hstep c c' h hnext
    exact ih _ (hmeasure ▸ hlower) hinv rfl

/-- No run goes on for ever when every step from a state of the invariant lowers a measure. -/
theorem terminates {μ : Type*} {less : μ → μ → Prop} (hless : WellFounded less)
    (measure : σ → Multiset τ → μ) (Inv : σ → Multiset τ → Prop)
    (hstep : ∀ s t s' born others, Inv s (t ::ₘ others) → next s t s' born →
      Inv s' (born + others) ∧ less (measure s' (born + others)) (measure s (t ::ₘ others)))
    {c : Config σ τ} (h : Inv c.shared c.threads) : Acc (fun c' c => Step next c c') c := by
  apply acc_of_lowers hless (fun c => measure c.shared c.threads) (fun c => Inv c.shared c.threads) ?_ h
  intro c c' hinv hnext
  cases hnext with
  | turn others _ hnext => exact hstep _ _ _ _ _ hinv hnext

/-- The sum of a weight over the threads. -/
def total (weight : τ → ℤ) (threads : Multiset τ) : ℤ := (threads.map weight).sum

section Total

variable {weight : τ → ℤ}
variable {threads : Multiset τ}

@[simp] theorem total_zero : total weight 0 = 0 := by
  simp [total]

@[simp] theorem total_cons (t : τ) (threads : Multiset τ) :
    total weight (t ::ₘ threads) = weight t + total weight threads := by
  simp [total]

@[simp] theorem total_add (first second : Multiset τ) :
    total weight (first + second) = total weight first + total weight second := by
  simp [total]

@[simp] theorem total_singleton (t : τ) : total weight {t} = weight t := by
  simp [total]

theorem total_eq_zero (h : ∀ t ∈ threads, weight t = 0) : total weight threads = 0 := by
  rw [total, map_congr rfl h, sum_map_zero]

theorem total_nonneg (h : ∀ t, 0 ≤ weight t) (threads : Multiset τ) :
    0 ≤ total weight threads := by
  apply sum_nonneg
  intro x hx
  obtain ⟨t, _, rfl⟩ := mem_map.1 hx
  exact h t

/-- A positive sum has a thread that contributes to it. -/
theorem exists_of_total_pos (h : 0 < total weight threads) : ∃ t ∈ threads, 0 < weight t := by
  by_contra hnone
  have hle : total weight threads ≤ (threads.map fun _ => (0 : ℤ)).sum := by
    apply sum_map_le_sum_map
    intro t ht
    by_contra hpos
    exact hnone ⟨t, ht, by omega⟩
  rw [sum_map_zero] at hle
  omega

theorem le_total_of_mem (hnonneg : ∀ t, 0 ≤ weight t) {t : τ} (ht : t ∈ threads) :
    weight t ≤ total weight threads := by
  obtain ⟨others, rfl⟩ := exists_cons_of_mem ht
  have hothers := total_nonneg hnonneg others
  rw [total_cons]
  omega

end Total

/-- The number of threads with a property. -/
def count (holds : τ → Bool) (threads : Multiset τ) : ℕ := threads.countP (holds · = true)

section Count

variable {holds : τ → Bool}

@[simp] theorem count_zero : count holds 0 = 0 :=
  countP_zero _

@[simp] theorem count_cons (t : τ) (threads : Multiset τ) :
    count holds (t ::ₘ threads) = count holds threads + if holds t then 1 else 0 :=
  countP_cons _ _ _

@[simp] theorem count_add (first second : Multiset τ) :
    count holds (first + second) = count holds first + count holds second :=
  countP_add _ _ _

@[simp] theorem count_singleton (t : τ) : count holds {t} = if holds t then 1 else 0 := by
  rw [← cons_zero, count_cons, count_zero, Nat.zero_add]

theorem count_le_count {other : τ → Bool} (h : ∀ t, holds t = true → other t = true)
    (threads : Multiset τ) : count holds threads ≤ count other threads := by
  induction threads using Multiset.induction_on with
  | empty => exact le_rfl
  | cons t threads ih =>
    rw [count_cons, count_cons]
    by_cases ht : holds t = true
    · rw [if_pos ht, if_pos (h t ht)]
      exact Nat.add_le_add_right ih 1
    · rw [if_neg ht]
      exact ih.trans (Nat.le_add_right _ _)

theorem count_pos {threads : Multiset τ} : 0 < count holds threads ↔ ∃ t ∈ threads, holds t = true :=
  countP_pos

theorem count_eq_zero {threads : Multiset τ} :
    count holds threads = 0 ↔ ∀ t ∈ threads, ¬ holds t = true :=
  countP_eq_zero

end Count

end Interleaving
