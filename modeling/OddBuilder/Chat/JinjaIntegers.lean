import Mathlib.Tactic.Linarith
import OddBuilder.Chat.JinjaParser
import OddBuilder.Chat.JinjaRuns

/-!
# Integer steps of the template machine

Nothing in the machine keeps its integers away from the ends of the 64-bit range. A
step is defined exactly when its operands keep a distance from them, and a run has a
result exactly when all of its steps are defined.
-/

namespace JobTokenizer

open Traced

variable {D : Type}

namespace IntStep

variable {b a : Int64}

def least : Int := -2 ^ 63

def greatest : Int := 2 ^ 63 - 1

/-- How far a product may lie from zero. -/
def room (a b : Int) : Nat := if a < 0 ↔ b < 0 then 2 ^ 63 - 1 else 2 ^ 63

/-- The distance of the operands from the ends. For a call of `range` that has elements, the
counter of its last one, the nearest one to `stop`, is a step away from the end at least. -/
def Safe : IntStep → Prop
  | add a b =>
    (0 ≤ b.toInt → a.toInt ≤ greatest - b.toInt) ∧ (b.toInt < 0 → least - b.toInt ≤ a.toInt)
  | sub a b =>
    (0 ≤ b.toInt → least + b.toInt ≤ a.toInt) ∧ (b.toInt < 0 → a.toInt ≤ greatest + b.toInt)
  | mul a b => b ≠ 0 → a.toInt.natAbs ≤ room a.toInt b.toInt / b.toInt.natAbs
  | neg a => a.toInt ≠ least
  | rem a b => b ≠ 0 ∧ ¬(a.toInt = least ∧ b.toInt = -1)
  | count _ _ => True
  | range start stop step =>
    let step := (if step = 0 then 1 else step).toInt
    (0 < step → start.toInt < stop.toInt →
      stop.toInt - 1 - (stop.toInt - 1 - start.toInt) % step ≤ greatest - step) ∧
    (step < 0 → stop.toInt < start.toInt →
      least - step ≤ stop.toInt + 1 + (start.toInt - 1 - stop.toInt) % -step)

theorem fits_iff (n : Int) : fits n ↔ least ≤ n ∧ n ≤ greatest := by
  rw [fits, least, greatest]
  omega

theorem fits_toInt (a : Int64) : fits a.toInt := ⟨a.le_toInt, a.toInt_lt⟩

theorem toInt_eq_zero : b.toInt = 0 ↔ b = 0 := by
  rw [← Int64.toInt_inj, Int64.toInt_zero]

theorem add_fits_iff : fits (a.toInt + b.toInt) ↔ (add a b).Safe := by
  have ha := fits_toInt a
  rw [fits_iff] at ha ⊢
  rw [Safe]
  omega

theorem sub_fits_iff : fits (a.toInt - b.toInt) ↔ (sub a b).Safe := by
  have ha := fits_toInt a
  rw [fits_iff] at ha ⊢
  rw [Safe]
  omega

theorem neg_fits_iff : fits (-a.toInt) ↔ (neg a).Safe := by
  have ha := fits_toInt a
  rw [fits] at ha ⊢
  rw [Safe, least]
  omega

/-- The sign of a product decides which end of the range it is measured against. -/
theorem mul_fits_iff : fits (a.toInt * b.toInt) ↔ (mul a b).Safe := by
  by_cases hb : b = 0
  · rw [Safe, hb, Int64.toInt_zero]
    simp only [fits, ne_eq, not_true_eq_false, false_imp_iff, iff_true]
    omega
  have hpos : 0 < b.toInt.natAbs := Int.natAbs_pos.mpr fun h => hb (toInt_eq_zero.mp h)
  have hsafe : (mul a b).Safe ↔ a.toInt.natAbs * b.toInt.natAbs ≤ room a.toInt b.toInt := by
    rw [← Nat.le_div_iff_mul_le hpos]
    exact ⟨fun h => h hb, fun h _ => h⟩
  rw [hsafe, ← Int.natAbs_mul, fits, room]
  split
  · next hsign =>
    have hproduct : 0 ≤ a.toInt * b.toInt := by
      by_cases ha : a.toInt < 0
      · exact (Int.mul_pos_of_neg_of_neg ha (hsign.mp ha)).le
      · exact Int.mul_nonneg (not_lt.mp ha) (not_lt.mp fun h => ha (hsign.mpr h))
    omega
  · next hsign =>
    have hproduct : a.toInt * b.toInt ≤ 0 := by
      by_cases ha : a.toInt < 0
      · exact Int.mul_nonpos_of_nonpos_of_nonneg ha.le (not_lt.mp fun h => hsign (iff_of_true ha h))
      · have hneg : b.toInt < 0 := not_le.mp fun h => hsign (iff_of_false ha (not_lt.mpr h))
        exact Int.mul_nonpos_of_nonneg_of_nonpos (not_lt.mp ha) hneg.le
    omega

/-- Only the quotient of the least number by minus one is too large. -/
theorem rem_fits_iff :
    (b ≠ 0 ∧ fits (a.toInt.tdiv b.toInt)) ↔ (rem a b).Safe := by
  refine and_congr_right fun hb => ?_
  have hb' : b.toInt ≠ 0 := fun h => hb (toInt_eq_zero.mp h)
  have ha := fits_toInt a
  have hsize : (a.toInt.tdiv b.toInt).natAbs = a.toInt.natAbs / b.toInt.natAbs :=
    Int.natAbs_tdiv a.toInt b.toInt
  rw [fits] at ha ⊢
  rw [least]
  by_cases hone : b.toInt = -1
  · rw [hone, Int.tdiv_neg, Int.tdiv_one]
    omega
  · by_cases hone' : b.toInt = 1
    · rw [hone', Int.tdiv_one]
      omega
    · have hhalf : a.toInt.natAbs / b.toInt.natAbs ≤ a.toInt.natAbs / 2 :=
        Nat.div_le_div_left (by omega) (by decide)
      omega

theorem defined_iff_safe (s : IntStep) (h : s.ofOperator = true) : s.Defined ↔ s.Safe := by
  cases s with
  | add a b => exact add_fits_iff
  | sub a b => exact sub_fits_iff
  | mul a b => exact mul_fits_iff
  | neg a => exact neg_fits_iff
  | rem a b => exact rem_fits_iff
  | count i step => cases h
  | range start stop step => cases h

end IntStep

open IntStep

/-- All steps are defined if all are safe, and only then there is a result. -/
structure Sound {α : Type} (x : Traced IntStep α) : Prop where
  defined : x.Every Defined ↔ x.Every Safe
  result : x.result.isSome = true ↔ x.Every Safe

theorem sound_pure {α : Type} (a : α) : Sound (pure a : Traced IntStep α) where
  defined := iff_of_true (every_pure a) (every_pure a)
  result := iff_of_true rfl (every_pure a)

theorem sound_bind {α β : Type} {x : Traced IntStep α} {f : α → Traced IntStep β} (hx : Sound x)
    (hf : ∀ a, Sound (f a)) : Sound (x >>= f) where
  defined := by
    rw [every_bind, every_bind, hx.defined]
    exact and_congr_right fun _ => forall₂_congr fun a _ => (hf a).defined
  result := by
    rw [every_bind, ← hx.result, result_bind]
    cases x.result with
    | none => exact iff_of_false Bool.false_ne_true fun h => Bool.false_ne_true h.1
    | some a =>
      rw [Option.bind_some, (hf a).result]
      exact ⟨fun h => ⟨rfl, fun b hb => Option.some.inj hb ▸ h⟩, fun h => h.2 a rfl⟩

theorem perform_of_defined {s : IntStep} (h : s.Defined) : s.perform = ⟨[s], some s.result⟩ := by
  rw [IntStep.perform, if_pos h]
  rfl

theorem perform_of_not_defined {s : IntStep} (h : ¬s.Defined) : s.perform = ⟨[s], none⟩ := by
  rw [IntStep.perform, if_neg h]
  rfl

theorem every_one {α : Type} {P : IntStep → Prop} (s : IntStep) (r : Option α) :
    (⟨[s], r⟩ : Traced IntStep α).Every P ↔ P s := by
  rw [Traced.Every, List.forall_mem_singleton]

theorem sound_perform (s : IntStep) (h : s.ofOperator = true) : Sound s.perform := by
  have hsafe := defined_iff_safe s h
  by_cases hdefined : s.Defined
  · rw [perform_of_defined hdefined]
    constructor
    · rw [every_one, every_one, hsafe]
    · rw [every_one]
      exact iff_of_true rfl (hsafe.mp hdefined)
  · rw [perform_of_not_defined hdefined]
    constructor
    · rw [every_one, every_one, hsafe]
    · rw [every_one]
      exact iff_of_false Bool.false_ne_true (mt hsafe.mpr hdefined)

def elements (i step : Int) (n : Nat) : List Int := (List.range n).map fun k : Nat => i + k * step

theorem counter_shift (i step : Int) (k : Nat) : i + step + k * step = i + (k + 1 : Nat) * step := by
  push_cast
  ring

theorem elements_succ (i step : Int) (n : Nat) :
    elements i step (n + 1) = i :: elements (i + step) step n := by
  rw [elements, List.range_succ_eq_map, List.map_cons, List.map_map]
  congr 1
  · rw [Nat.cast_zero, zero_mul, add_zero]
  · refine List.map_congr_left fun k _ => ?_
    exact (counter_shift i step k).symm

/-- A loop from `i` that goes on before an end has `n` elements. -/
structure Counts (before : Int → Prop) (i step : Int) (n : Nat) : Prop where
  inside : ∀ k < n, before (i + k * step)
  behind : ¬before (i + n * step)

theorem Counts.next {before : Int → Prop} {i step : Int} {n : Nat}
    (h : Counts before i step (n + 1)) : Counts before (i + step) step n := by
  constructor
  · intro k hk
    rw [counter_shift]
    exact h.inside (k + 1) (by omega)
  · rw [counter_shift]
    exact h.behind

theorem toInt_add_of_fits {a b : Int64} (h : fits (a.toInt + b.toInt)) :
    (a + b).toInt = a.toInt + b.toInt := by
  rw [fits] at h
  rw [Int64.toInt_add]
  exact Int.bmod_eq_of_le (by omega) (by omega)

/-- A counter that stays a 64-bit integer up to the end of the loop is one behind every element. -/
theorem fits_next {i step : Int} {n : Nat} (hi : fits i) (h : fits (i + step + n * step)) :
    fits (i + step) := by
  rw [fits] at *
  by_cases hstep : 0 ≤ step
  · have hrest : 0 ≤ n * step := Int.mul_nonneg (Int.natCast_nonneg n) hstep
    omega
  · have hrest : n * step ≤ 0 :=
      Int.mul_nonpos_of_nonneg_of_nonpos (Int.natCast_nonneg n) (by omega)
    omega

/-- A loop that has these elements if it comes to its end, which it does under a condition. -/
structure Counted (x : Traced IntStep (List Int64)) (values : List Int) (ends : Prop) : Prop where
  safe : x.Every Safe
  defined : x.Every Defined ↔ ends
  result : ends → ∃ counters, x.result = some counters ∧ counters.map Int64.toInt = values
  failed : ¬ends → x.result = none

/-- The loop with an element in front. -/
theorem rangeLoop_succ {before : Int64 → Bool} {i : Int64} (hi : before i = true) (step : Int64)
    (turns : Nat) (hfits : fits (i.toInt + step.toInt)) :
    rangeLoop before step (turns + 1) i =
      ⟨count i step :: (rangeLoop before step turns (i + step)).events,
        (rangeLoop before step turns (i + step)).result.map fun rest => i :: rest⟩ := by
  have hdefined : (count i step).Defined := hfits
  rw [rangeLoop, if_pos hi, perform_of_defined hdefined]
  simp only [bind, IntStep.result]
  cases (rangeLoop before step turns (i + step)).result with
  | none => rfl
  | some rest => exact congrArg₂ mk (by simp [pure]) rfl

theorem Counted.cons {x y : Traced IntStep (List Int64)} {values : List Int} {ends : Prop}
    (h : Counted x values ends) {i step : Int64} (hfits : fits (i.toInt + step.toInt))
    (hy : y = ⟨count i step :: x.events, x.result.map fun rest => i :: rest⟩) :
    Counted y (i.toInt :: values) ends := by
  subst hy
  have hevery : ∀ P : IntStep → Prop, P (count i step) →
      ((⟨count i step :: x.events, x.result.map fun rest => i :: rest⟩ :
        Traced IntStep (List Int64)).Every P ↔ x.Every P) := by
    intro P hP
    rw [Traced.Every, List.forall_mem_cons]
    exact and_iff_right hP
  constructor
  · exact (hevery _ trivial).mpr h.safe
  · exact (hevery _ hfits).trans h.defined
  · intro hends
    obtain ⟨counters, hresult, hvalues⟩ := h.result hends
    refine ⟨i :: counters, ?_, ?_⟩
    · rw [hresult]
      rfl
    · rw [List.map_cons, hvalues]
  · intro hends
    rw [h.failed hends]
    rfl

theorem counted_loop {before : Int64 → Bool} {B : Int → Prop}
    (hbefore : ∀ i, before i = true ↔ B i.toInt) (step : Int64) :
    ∀ (n turns : Nat) (i : Int64), n < turns → Counts B i.toInt step.toInt n →
      Counted (rangeLoop before step turns i) (elements i.toInt step.toInt n)
        (n = 0 ∨ fits (i.toInt + n * step.toInt)) := by
  intro n
  induction n with
  | zero =>
    intro turns i hturns hcounts
    obtain ⟨turns, rfl⟩ := Nat.exists_eq_succ_of_ne_zero (Nat.ne_of_gt hturns)
    have hi : ¬before i = true := by
      rw [hbefore]
      simpa using hcounts.behind
    have hloop : rangeLoop before step (turns + 1) i = pure [] := by rw [rangeLoop, if_neg hi]
    rw [hloop]
    exact ⟨every_pure _, iff_of_true (every_pure _) (.inl rfl),
      fun _ => ⟨[], rfl, rfl⟩, fun h => absurd (.inl rfl) h⟩
  | succ n ih =>
    intro turns i hturns hcounts
    obtain ⟨turns, rfl⟩ := Nat.exists_eq_succ_of_ne_zero (Nat.ne_of_gt (Nat.zero_lt_of_lt hturns))
    have hi : before i = true := by
      rw [hbefore]
      simpa using hcounts.inside 0 n.succ_pos
    rw [← counter_shift]
    by_cases hfits : fits (i.toInt + step.toInt)
    · have hnext := toInt_add_of_fits hfits
      have hrest := ih turns (i + step) (Nat.lt_of_succ_lt_succ hturns) (hnext ▸ hcounts.next)
      -- the end of the rest is the end of the loop, which is a 64-bit integer if nothing follows
      have hends : (n = 0 ∨ fits ((i + step).toInt + n * step.toInt)) ↔
          (n + 1 = 0 ∨ fits (i.toInt + step.toInt + n * step.toInt)) := by
        rw [hnext, or_iff_right n.succ_ne_zero, or_iff_right_of_imp]
        rintro rfl
        rwa [Nat.cast_zero, zero_mul, add_zero]
      rw [elements_succ, ← hends, ← hnext]
      exact hrest.cons hfits (rangeLoop_succ hi step turns hfits)
    · have hdefined : ¬(count i step).Defined := hfits
      have hloop : rangeLoop before step (turns + 1) i = ⟨[count i step], none⟩ := by
        rw [rangeLoop, if_pos hi, perform_of_not_defined hdefined]
        rfl
      have hends : ¬(n + 1 = 0 ∨ fits (i.toInt + step.toInt + n * step.toInt)) := by
        rintro (h | h)
        · cases h
        · exact hfits (fits_next (fits_toInt i) h)
      rw [hloop]
      exact ⟨(every_one _ _).mpr trivial, iff_of_false (mt (every_one _ _).mp hdefined) hends,
        fun h => absurd h hends, fun _ => rfl⟩

/-- How many elements there are upwards, and where the counter is behind them. -/
theorem counts_up {start stop step : Int} (hstep : 0 < step) :
    ∃ n : Nat, n ≤ (stop - start).natAbs ∧ Counts (· < stop) start step n ∧
      (n = 0 ↔ ¬start < stop) ∧
      (start < stop → start + n * step = stop - 1 - (stop - 1 - start) % step + step) := by
  by_cases hless : start < stop
  · have hquotient : 0 ≤ (stop - 1 - start) / step := Int.ediv_nonneg (by omega) hstep.le
    have hdivision := Int.mul_ediv_add_emod (stop - 1 - start) step
    have hremainder := Int.emod_lt_of_pos (stop - 1 - start) hstep
    have hremainder' := Int.emod_nonneg (stop - 1 - start) hstep.ne'
    obtain ⟨q, hq⟩ := Int.eq_ofNat_of_zero_le hquotient
    rw [hq] at hdivision
    have hend : start + (q + 1 : Nat) * step = stop - 1 - (stop - 1 - start) % step + step := by
      push_cast
      linarith
    refine ⟨q + 1, ?_, ⟨?_, ?_⟩, by omega, fun _ => hend⟩
    · have hle : (q : Int) ≤ step * q := le_mul_of_one_le_left (Int.natCast_nonneg q) hstep
      omega
    · intro k hk
      have hle : (k : Int) * step ≤ q * step := by
        apply mul_le_mul_of_nonneg_right _ hstep.le
        exact_mod_cast Nat.le_of_lt_succ hk
      linarith
    · omega
  · refine ⟨0, Nat.zero_le _, ⟨fun k hk => absurd hk k.not_lt_zero, ?_⟩, by simpa using hless,
      fun h => absurd h hless⟩
    simpa using hless

/-- Downwards it is the same with every sign changed. -/
theorem counts_down {start stop step : Int} (hstep : step < 0) :
    ∃ n : Nat, n ≤ (stop - start).natAbs ∧ Counts (stop < ·) start step n ∧
      (n = 0 ↔ ¬stop < start) ∧
      (stop < start → start + n * step = stop + 1 + (start - 1 - stop) % -step + step) := by
  obtain ⟨n, hn, hcounts, hzero, hend⟩ :=
    @counts_up (-start) (-stop) (-step) (Int.neg_pos_of_neg hstep)
  have hsign : ∀ k : Nat, -start + k * -step = -(start + k * step) := by
    intro k
    ring
  refine ⟨n, by omega, ⟨?_, ?_⟩, by omega, ?_⟩
  · intro k hk
    have := hcounts.inside k hk
    rw [hsign] at this
    omega
  · have := hcounts.behind
    rw [hsign] at this
    omega
  · intro hless
    have hend := hend (by omega)
    rw [show -stop - 1 - -start = start - 1 - stop by ring] at hend
    linarith

/-- What `range` takes for its step. -/
def stepOf (step : Int64) : Int64 := if step = 0 then 1 else step

theorem stepOf_ne_zero (step : Int64) : (stepOf step).toInt ≠ 0 := by
  rw [stepOf, Ne, toInt_eq_zero]
  split
  · decide
  · next h => exact h

/-- Strictly before the end, seen in the direction of the step. -/
def Before (stop step i : Int) : Prop := if 0 < step then i < stop else stop < i

theorem rangeOf_eq (start stop step : Int64) :
    ∃ before : Int64 → Bool,
      (∀ i, before i = true ↔ Before stop.toInt (stepOf step).toInt i.toInt) ∧
      rangeOf start stop step = report (.range start stop step) >>= fun _ =>
        rangeLoop before (stepOf step) ((stop.toInt - start.toInt).natAbs + 1) start := by
  by_cases hpos : 0 < stepOf step
  · have hstep : 0 < (stepOf step).toInt := Int64.lt_iff_toInt_lt.mp hpos
    refine ⟨fun i => i < stop, fun i => ?_, ?_⟩
    · rw [Before, if_pos hstep, decide_eq_true_iff, Int64.lt_iff_toInt_lt]
    · exact congrArg _ (funext fun _ => if_pos hpos)
  · have hstep : ¬0 < (stepOf step).toInt := fun h => hpos (Int64.lt_iff_toInt_lt.mpr h)
    refine ⟨fun i => stop < i, fun i => ?_, ?_⟩
    · rw [Before, if_neg hstep, decide_eq_true_iff, Int64.lt_iff_toInt_lt]
    · exact congrArg _ (funext fun _ => if_neg hpos)

/-- A call comes to its end exactly when it is safe. -/
theorem counts_range (start stop step : Int64) :
    ∃ n : Nat, n < (stop.toInt - start.toInt).natAbs + 1 ∧
      Counts (Before stop.toInt (stepOf step).toInt) start.toInt (stepOf step).toInt n ∧
      ((n = 0 ∨ fits (start.toInt + n * (stepOf step).toInt)) ↔ (range start stop step).Safe) := by
  have hstart := fits_toInt start
  have hstop := fits_toInt stop
  rw [fits_iff] at hstart hstop
  rcases Int.lt_or_gt_of_ne (stepOf_ne_zero step) with hstep | hstep
  · obtain ⟨n, hn, hcounts, hzero⟩ := @counts_down start.toInt stop.toInt _ hstep
    have hbefore : Before stop.toInt (stepOf step).toInt = (stop.toInt < ·) :=
      funext fun i => if_neg (not_lt.mpr hstep.le)
    refine ⟨n, Nat.lt_succ_of_le hn, hbefore ▸ hcounts, ?_⟩
    have hremainder :=
      Int.emod_lt_of_pos (start.toInt - 1 - stop.toInt) (Int.neg_pos_of_neg hstep)
    have hsafe : (range start stop step).Safe ↔ (stop.toInt < start.toInt →
        least - (stepOf step).toInt ≤
          stop.toInt + 1 + (start.toInt - 1 - stop.toInt) % -(stepOf step).toInt) :=
      ⟨fun h => h.2 hstep, fun h => ⟨fun h => absurd h (not_lt.mpr hstep.le), fun _ => h⟩⟩
    rw [hsafe, fits_iff]
    by_cases hless : stop.toInt < start.toInt
    · omega
    · omega
  · obtain ⟨n, hn, hcounts, hzero⟩ := @counts_up start.toInt stop.toInt _ hstep
    have hbefore : Before stop.toInt (stepOf step).toInt = (· < stop.toInt) :=
      funext fun i => if_pos hstep
    refine ⟨n, Nat.lt_succ_of_le hn, hbefore ▸ hcounts, ?_⟩
    have hremainder := Int.emod_lt_of_pos (stop.toInt - 1 - start.toInt) hstep
    have hsafe : (range start stop step).Safe ↔ (start.toInt < stop.toInt →
        stop.toInt - 1 - (stop.toInt - 1 - start.toInt) % (stepOf step).toInt ≤
          greatest - (stepOf step).toInt) :=
      ⟨fun h => h.1 hstep, fun h => ⟨fun _ => h, fun h => absurd h (not_lt.mpr hstep.le)⟩⟩
    rw [hsafe, fits_iff]
    by_cases hless : start.toInt < stop.toInt
    · omega
    · omega

theorem counted_range (start stop step : Int64) :
    ∃ n : Nat, Counts (Before stop.toInt (stepOf step).toInt) start.toInt (stepOf step).toInt n ∧
      Sound (rangeOf start stop step) ∧
      ((rangeOf start stop step).Every Safe ↔ (range start stop step).Safe) ∧
      ∀ counters, (rangeOf start stop step).result = some counters →
        counters.map Int64.toInt = elements start.toInt (stepOf step).toInt n := by
  obtain ⟨before, hbefore, hloop⟩ := rangeOf_eq start stop step
  obtain ⟨n, hn, hcounts, hends⟩ := counts_range start stop step
  have hcounted := counted_loop hbefore (stepOf step) n _ start hn hcounts
  rw [hends] at hcounted
  have hevery : ∀ P : IntStep → Prop, (rangeOf start stop step).Every P ↔
      P (range start stop step) ∧
        (rangeLoop before (stepOf step) ((stop.toInt - start.toInt).natAbs + 1) start).Every P := by
    intro P
    rw [hloop, every_bind, every_report]
    exact and_congr_right fun _ => ⟨fun h => h () rfl, fun h _ _ => h⟩
  have hresult : (rangeOf start stop step).result =
      (rangeLoop before (stepOf step) ((stop.toInt - start.toInt).natAbs + 1) start).result := by
    rw [hloop]
    rfl
  have hsafe : (rangeOf start stop step).Every Safe ↔ (range start stop step).Safe := by
    rw [hevery]
    exact and_iff_left hcounted.safe
  refine ⟨n, hcounts, ⟨?_, ?_⟩, hsafe, ?_⟩
  · rw [hsafe, hevery, hcounted.defined]
    exact and_iff_right trivial
  · rw [hsafe, hresult]
    by_cases h : (range start stop step).Safe
    · obtain ⟨counters, hcounters, -⟩ := hcounted.result h
      rw [hcounters]
      exact iff_of_true rfl h
    · rw [hcounted.failed h]
      exact iff_of_false Bool.false_ne_true h
  · intro counters hcounters
    rw [hresult] at hcounters
    by_cases h : (range start stop step).Safe
    · obtain ⟨found, hfound, hvalues⟩ := hcounted.result h
      rw [hfound] at hcounters
      rw [← Option.some.inj hcounters, hvalues]
    · rw [hcounted.failed h] at hcounters
      cases hcounters

namespace JinjaVM

/-- From whatever state it begins. -/
def SoundRuns {α : Type} (x : Vm D α) : Prop := ∀ s, Sound (x s)

theorem soundRuns_bind {α β : Type} {x : Vm D α} {f : α → Vm D β} (hx : SoundRuns x)
    (hf : ∀ a, SoundRuns (f a)) : SoundRuns (x >>= f) :=
  fun s => sound_bind (hx s) fun r => hf r.1 r.2

theorem soundRuns_lift {α : Type} {x : Traced IntStep α} :
    SoundRuns (liftM x : Vm D α) ↔ Sound x := by
  have hevery : ∀ (P : IntStep → Prop) (s : VmState D),
      ((liftM x : Vm D α) s).Every P ↔ x.Every P := by
    intro P s
    have hbind := every_bind (P := P) x fun a => (pure (a, s) : Traced IntStep (α × VmState D))
    exact hbind.trans (and_iff_left fun _ _ => every_pure _)
  have hresult : ∀ s : VmState D, ((liftM x : Vm D α) s).result.isSome = x.result.isSome := by
    intro s
    have hbind := result_bind x fun a => (pure (a, s) : Traced IntStep (α × VmState D))
    refine (congrArg Option.isSome hbind).trans ?_
    cases x.result <;> rfl
  constructor
  · intro h
    have hfirst := h {}
    exact ⟨by rw [← hevery _ {}, ← hevery _ {}, hfirst.defined],
      by rw [← hresult {}, ← hevery _ {}, hfirst.result]⟩
  · intro h s
    exact ⟨by rw [hevery, hevery, h.defined], by rw [hresult, hevery, h.result]⟩

theorem sound_function (platform : Platform D) {name : Text} {function : FunctionFn D}
    (h : (JinjaVM.default platform).functions name = some function) (posArgs : List (Value D))
    (kwArgs : ValueMap D) : Sound (function posArgs kwArgs) := by
  have hrange : function = range platform := by
    have hname : defaultFunctions platform name = some function := h
    rw [defaultFunctions] at hname
    split at hname
    · exact (Option.some.inj hname).symm
    · cases hname
  rw [hrange]
  refine sound_bind ?_ fun counters => sound_pure _
  obtain ⟨-, -, hsound, -⟩ := counted_range _ _ _
  exact hsound

theorem stmtInvariant_soundRuns (platform : Platform D) :
    StmtInvariant (JinjaVM.default platform) SoundRuns where
  pure a := fun s => sound_pure (a, s)
  bind := soundRuns_bind
  get := fun s => sound_pure (s, s)
  setLast value := fun s => sound_pure ((), { s with lastExpressionValue := value })
  traced :=
    { pure := fun a => soundRuns_lift.mpr (sound_pure a)
      bind := fun hx hf => soundRuns_lift.mpr
        (sound_bind (soundRuns_lift.mp hx) fun a => soundRuns_lift.mp (hf a))
      perform := fun s h => soundRuns_lift.mpr (sound_perform s h)
      function := fun _ _ h posArgs kwArgs =>
        soundRuns_lift.mpr (sound_function platform h posArgs kwArgs) }
  appendOutput text :=
    fun s => sound_pure ((), { s with outputBuffer := s.outputBuffer ++ text })
  setVariable name value :=
    fun s => sound_pure ((), { s with scopes := setIn name value s.scopes })
  inScope h :=
    soundRuns_bind (fun s => sound_pure ((), { s with scopes := [] :: s.scopes })) fun _ =>
      soundRuns_bind h fun _ s => sound_pure ((), { s with scopes := s.scopes.tail })

theorem soundRuns_execute (platform : Platform D) (root : BodyNode D) (context : ValueMap D) :
    SoundRuns (execute (JinjaVM.default platform) root context) := by
  have h := stmtInvariant_soundRuns platform
  exact h.bind h.get fun s => h.bind (fun s => sound_pure _) fun _ => h.bind (h.body root) fun _ =>
    h.bind (fun s => sound_pure _) fun _ => h.bind h.get fun s => h.pure _

theorem soundRuns_evaluate (platform : Platform D) (e : ExprNode D) (context : ValueMap D) :
    SoundRuns (evaluate (JinjaVM.default platform) e context) := by
  have h := stmtInvariant_soundRuns platform
  exact h.bind (fun s => sound_pure _) fun _ => h.bind (h.expr e) fun _ => h.bind h.get fun s =>
    h.bind (fun s => sound_pure ((), { s with scopes := s.scopes.tail })) fun _ => h.pure _

/-- A run does only defined integer steps exactly when all of its steps are safe, and then it has a
result; `range` hands out `start`, `start + step` and so on up to `stop` exactly when the call is
safe. -/
theorem defined_iff (platform : Platform D) :
    (∀ root context s, ((execute (JinjaVM.default platform) root context s).Every Defined ↔
        (execute (JinjaVM.default platform) root context s).Every Safe) ∧
      ((execute (JinjaVM.default platform) root context s).result.isSome ↔
        (execute (JinjaVM.default platform) root context s).Every Safe)) ∧
    (∀ e context s, ((evaluate (JinjaVM.default platform) e context s).Every Defined ↔
        (evaluate (JinjaVM.default platform) e context s).Every Safe) ∧
      ((evaluate (JinjaVM.default platform) e context s).result.isSome ↔
        (evaluate (JinjaVM.default platform) e context s).Every Safe)) ∧
    ∀ start stop step : Int64,
      (∃ counters n, (rangeOf start stop step).result = some counters ∧
        counters.map Int64.toInt = elements start.toInt (stepOf step).toInt n ∧
        Counts (Before stop.toInt (stepOf step).toInt) start.toInt (stepOf step).toInt n) ↔
      (IntStep.range start stop step).Safe := by
  refine ⟨fun root context s => ?_, fun e context s => ?_, fun start stop step => ?_⟩
  · exact ⟨(soundRuns_execute platform root context s).defined,
      (soundRuns_execute platform root context s).result⟩
  · exact ⟨(soundRuns_evaluate platform e context s).defined,
      (soundRuns_evaluate platform e context s).result⟩
  · obtain ⟨n, hcounts, hsound, hsafe, hvalues⟩ := counted_range start stop step
    rw [← hsafe, ← hsound.result]
    constructor
    · rintro ⟨counters, -, hresult, -, -⟩
      rw [hresult]
      rfl
    · intro h
      obtain ⟨counters, hcounters⟩ := Option.isSome_iff_exists.mp h
      exact ⟨counters, n, hcounters, hvalues counters hcounters, hcounts⟩

/-- A platform whose floating-point numbers are integers. -/
def integers : Platform Int where
  zero := 0
  one := 1
  ofInt := Int64.toInt
  toInt := Int64.ofInt
  neg := Int.neg
  add := Int.add
  sub := Int.sub
  mul := Int.mul
  div := Int.tdiv
  pow a b := a ^ b.toNat
  floor a := a
  less a b := a < b
  isZero a := a = 0
  near a b := a = b
  toText := JobJson.toChars
  arrange entries := entries

/-- `{{ 9223372036854775807 + 1 }}`. -/
theorem greatest_plus_one : ∃ root : BodyNode Int,
    JinjaParser.parse (fun _ => none) [⟨.exprBegin, [], {}⟩,
      ⟨.numberLiteral, ascii "9223372036854775807", {}⟩, ⟨.plus, [], {}⟩,
      ⟨.numberLiteral, ascii "1", {}⟩, ⟨.exprEnd, [], {}⟩] = .ok root ∧
    ¬(execute (JinjaVM.default integers) root [] {}).Every Defined := by
  refine ⟨.mk {} [some (.output {} (some (.binaryOp {} .add
    (some (.literal {} (.int 9223372036854775807))) (some (.literal {} (.int 1))))))], ?_, ?_⟩
  · rfl
  · intro h
    exact absurd (h (.add 9223372036854775807 1) (List.Mem.head _)) (by decide)

end JinjaVM

end JobTokenizer
