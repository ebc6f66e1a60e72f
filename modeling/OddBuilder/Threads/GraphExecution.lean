import OddBuilder.Threads.GraphRuns

/-!
# Executions of a graph

Any number of calls of `run`, one after another. A call that begins while a
closure of an earlier run can still test the flag takes the flag away from it;
what is proved of later runs is under a schedule without such calls.
-/

namespace JobThreads

open Interleaving JobThreadGraph GraphThread ClosurePc Multiset

variable {Name : Type} [DecidableEq Name] {g : JobThreadGraph Name}

/-- The invariant of all runs: those of the past are settled, one is under way. -/
structure Execution (g : JobThreadGraph Name) (s : GraphState Name)
    (threads : Multiset (GraphThread Name)) : Prop where
  callers : count isCaller threads ≤ 1
  known : ∀ t ∈ threads, ∀ r, t.run? = some r → r < s.runs
  future : ∀ r, s.runs ≤ r → s.run r = .create
  past : ∀ r, r + 1 < s.runs → (s.run r).promise ≠ none ∧ Orderly g (s.run r)
  inert : ∀ t ∈ threads, ∀ r, t.run? = some r → r + 1 < s.runs → t.inert = true
  current : ∀ r, r + 1 = s.runs → Current g s r threads

/-- A call of `run` begins when all closures about are inert. -/
def BeginsQuietly (t : GraphThread Name) (others : Multiset (GraphThread Name)) : Prop :=
  ∀ calls, t = .caller (calls + 1) → ∀ u ∈ others, u.inert = true

section Steps

variable {s s' : GraphState Name} {t : GraphThread Name} {r : Nat}
  {born others : Multiset (GraphThread Name)}
variable {v : Name} {calls : Nat} {pc pc' : ClosurePc Name}

/-- A step of a thread that works for a run. -/
theorem Execution.within (h : Execution g s (t ::ₘ others)) (hrun : t.run? = some r)
    (hruns : s'.runs = s.runs) (hframe : ∀ r', r' ≠ r → s'.run r' = s.run r')
    (hcallers : count isCaller born = if t.isCaller then 1 else 0)
    (hborn : ∀ u ∈ born, u.run? = some r ∨ u.run? = none)
    (hcurrent : Current g s r (t ::ₘ others) → Current g s' r (born + others))
    (hpast : t.inert = true → (s.run r).promise ≠ none → (∀ u ∈ born, u.inert = true) ∧
      s'.depsLeft = s.depsLeft ∧ s'.failed = s.failed ∧ (s'.run r).promise ≠ none ∧
      (s'.run r).started = (s.run r).started ∧ (s'.run r).returned = (s.run r).returned) :
    Execution g s' (born + others) := by
  have hr : r < s.runs := h.known t (mem_cons_self _ _) r hrun
  have hpast' : r + 1 < s.runs → _ := fun hlt =>
    hpast (h.inert t (mem_cons_self _ _) r hrun hlt) (h.past r hlt).1
  refine ⟨?_, ?_, ?_, ?_, ?_, ?_⟩
  · have hle := h.callers
    rw [count_cons] at hle
    rw [count_add]
    omega
  · intro u hu r' hr'
    rw [hruns]
    rcases mem_add.1 hu with hu | hu
    · rcases hborn u hu with heq | hnone
      · rw [heq] at hr'
        cases hr'
        exact hr
      · rw [hnone] at hr'
        cases hr'
    · exact h.known u (mem_cons_of_mem hu) r' hr'
  · intro r' hr'
    rw [hruns] at hr'
    rw [hframe r' (by omega)]
    exact h.future r' hr'
  · intro r' hr'
    rw [hruns] at hr'
    by_cases heq : r' = r
    · subst heq
      obtain ⟨-, -, -, hpromise, hstarted, hreturned⟩ := hpast' hr'
      have horderly := (h.past r' hr').2
      refine ⟨hpromise, ?_, ?_⟩
      · rw [hstarted]
        exact horderly.once
      · rw [hstarted, hreturned]
        exact horderly.after
    · rw [hframe r' heq]
      exact h.past r' hr'
  · intro u hu r' hr' hlt
    rw [hruns] at hlt
    rcases mem_add.1 hu with hu | hu
    · rcases hborn u hu with heq | hnone
      · rw [heq] at hr'
        cases hr'
        exact (hpast' hlt).1 u hu
      · rw [hnone] at hr'
        cases hr'
    · exact h.inert u (mem_cons_of_mem hu) r' hr' hlt
  · intro r' hr'
    rw [hruns] at hr'
    have hcurrent' := h.current r' hr'
    by_cases heq : r' = r
    · subst heq
      exact hcurrent hcurrent'
    · obtain ⟨-, hdepsLeft, hfailed, -⟩ := hpast' (by omega)
      refine hcurrent'.other ?_ ?_ (hframe r' heq) hdepsLeft hfailed
      · rw [hrun]
        exact fun hr => heq (Option.some.inj hr).symm
      · intro u hu hu'
        rcases hborn u hu with hr | hnone
        · rw [hr] at hu'
          exact heq (Option.some.inj hu').symm
        · rw [hnone] at hu'
          cases hu'

/-- A closure goes on within the current run. -/
theorem Execution.move (h : Execution g s (.closure r v pc ::ₘ others)) (hruns : s'.runs = s.runs)
    (hframe : ∀ r', r' ≠ r → s'.run r' = s.run r')
    (hcurrent : Current g s r (.closure r v pc ::ₘ others) →
      Current g s' r (.closure r v pc' ::ₘ others)) (hlive : pc.inert = false) :
    Execution g s' ({.closure r v pc'} + others) := by
  refine h.within rfl hruns hframe ?_ ?_ ?_ ?_
  · simp [isCaller]
  · intro u hu
    rw [mem_singleton.1 hu]
    exact Or.inl rfl
  · exact hcurrent
  · intro hinert
    rw [show (GraphThread.closure r v pc).inert = pc.inert from rfl, hlive] at hinert
    cases hinert

/-- A call ends early, with the promise set. -/
theorem Execution.early {value : Bool} (h : Execution g s (t ::ₘ others))
    (ht : t = .preparing calls r ∨ t = .submitting calls r) (hvalue : value = true → g.names = []) :
    Execution g (s.modify r (·.setValue value)) ({.caller calls} + others) := by
  have hrun : t.run? = some r ∧ t.isCaller = true ∧ t.inert = false := by
    rcases ht with rfl | rfl <;> exact ⟨rfl, rfl, rfl⟩
  refine h.within hrun.1 rfl (fun r' hr' => modify_run_of_ne s hr' _) ?_ ?_ ?_ ?_
  · rw [hrun.2.1]
    rfl
  · intro u hu
    rw [mem_singleton.1 hu]
    exact Or.inr rfl
  · intro hcurrent
    obtain ⟨hcreate, hnone⟩ := hcurrent.blank ⟨calls, by
      rcases ht with rfl | rfl
      · exact Or.inl (mem_cons_self _ _)
      · exact Or.inr (mem_cons_self _ _)⟩
    have hcallers := h.callers
    rw [count_cons, if_pos hrun.2.1] at hcallers
    have hothers := count_eq_zero.1 (Nat.le_zero.1 (Nat.le_of_succ_le_succ hcallers))
    have hnot : ∀ u ∈ ({.caller calls} + others : Multiset (GraphThread Name)), u.isCaller = true →
        u = .caller calls := by
      intro u hu hcaller
      rcases mem_add.1 hu with hu | hu
      · exact mem_singleton.1 hu
      · exact absurd hcaller (hothers u hu)
    refine Current.of_noClosures ?_ (some value) ?_ ?_ ?_ (Or.inl ?_)
    · intro u hu hr
      rcases mem_add.1 hu with hu | hu
      · rw [mem_singleton.1 hu] at hr
        cases hr
      · exact hnone u (mem_cons_of_mem hu) hr
    · rw [modify_run_self, hcreate]
      rfl
    · intro heq
      exact hvalue (Option.some.inj heq)
    · rintro ⟨calls', hcall | hcall⟩
      · cases hnot _ hcall rfl
      · cases hnot _ hcall rfl
    · intro calls' hcall
      cases hnot _ hcall rfl
  · intro hinert
    rw [hrun.2.2] at hinert
    cases hinert

theorem names_of_tasks (hfits : g.FitsInt) (h : g.tasks = 0) : g.names = [] := by
  have htoNat := congrArg BitVec.toNat h
  rw [tasks_toNat hfits] at htoNat
  exact List.map_eq_nil_iff.2 (List.length_eq_zero_iff.1 htoNat)

/-- A call begins. -/
theorem Execution.begin (h : Execution g s (.caller (calls + 1) ::ₘ others))
    (hquiet : BeginsQuietly (.caller (calls + 1)) others)
    (hready : ∀ r, r < s.runs → (s.run r).promise ≠ none) :
    Execution g { s with failed := false, runs := s.runs + 1 }
      ({.preparing calls s.runs} + others) := by
  have hinert := hquiet calls rfl
  have hknown : ∀ u ∈ others, ∀ r, u.run? = some r → r < s.runs :=
    fun u hu r hr => h.known u (mem_cons_of_mem hu) r hr
  refine ⟨?_, ?_, ?_, ?_, ?_, ?_⟩
  · have hle := h.callers
    simp only [count_add, count_cons, count_singleton, isCaller] at hle ⊢
    omega
  · intro u hu r hr
    rcases mem_add.1 hu with hu | hu
    · rw [mem_singleton.1 hu] at hr
      cases hr
      exact Nat.lt_succ_self _
    · exact Nat.lt_succ_of_lt (hknown u hu r hr)
  · intro r hr
    exact h.future r (Nat.le_of_succ_le hr)
  · intro r hr
    have hlt : r < s.runs := Nat.lt_of_succ_lt_succ hr
    refine ⟨hready r hlt, ?_⟩
    by_cases hlast : r + 1 = s.runs
    · exact (h.current r hlast).orderly
    · exact (h.past r (by omega)).2
  · intro u hu r hr hlt
    rcases mem_add.1 hu with hu | hu
    · rw [mem_singleton.1 hu] at hr
      cases hr
      exact absurd hlt (Nat.lt_irrefl _)
    · exact hinert u hu
  · intro r hr
    have hrun : r = s.runs := Nat.succ.inj hr
    subst hrun
    have hnone : ∀ u ∈ others, u.run? ≠ some s.runs :=
      fun u hu heq => absurd (hknown u hu _ heq) (Nat.lt_irrefl _)
    refine Current.of_noClosures ?_ none (h.future _ (Nat.le_refl _)) ?_ ?_ (Or.inl ?_)
    · intro u hu heq
      rcases mem_add.1 hu with hu | hu
      · rw [mem_singleton.1 hu]
        rfl
      · exact absurd heq (hnone u hu)
    · intro heq
      cases heq
    · exact fun _ => rfl
    · intro calls' hcall
      rcases mem_add.1 hcall with hcall | hcall
      · cases mem_singleton.1 hcall
      · exact hnone _ hcall rfl

/-- A closure of the current run goes on, and only what grows in its run changes. -/
theorem Execution.step_modify {change : GraphRun Name → GraphRun Name}
    (h : Execution g s (.closure r v pc ::ₘ others)) (hgrows : Grows s (s.modify r change) r)
    (hpromise : (change (s.run r)).promise = (s.run r).promise) (hpc : pc.pending = [])
    (hpc' : pc'.pending = []) (hstarted : ∀ w, ((change (s.run r)).started.count w : ℤ) +
      (if v = w then pc'.unstarted else 0) ≤
        (s.run r).started.count w + if v = w then pc.unstarted else 0)
    (hreleased : pc'.unreleased ≤ pc.unreleased)
    (hassert : Asserts g (s.modify r change) r (.closure r v pc')) (hlive : pc.inert = false) :
    Execution g (s.modify r change) ({.closure r v pc'} + others) := by
  refine h.move rfl (fun r' hr' => modify_run_of_ne s hr' _) ?_ hlive
  intro hcurrent
  refine hcurrent.move hgrows ?_ hpc hpc' ?_ hreleased hassert
  · rw [modify_run_self, hpromise]
    exact id
  · rw [modify_run_self]
    exact hstarted

/-- A closure of the current run goes on after a look at the flag or the lock. -/
theorem Execution.step_look (h : Execution g s (.closure r v pc ::ₘ others)) (hpc : pc.pending = [])
    (hpc' : pc'.pending = []) (hunstarted : pc'.unstarted ≤ pc.unstarted)
    (hreleased : pc'.unreleased ≤ pc.unreleased)
    (hassert : Asserts g s r (.closure r v pc) → Asserts g s r (.closure r v pc'))
    (hlive : pc.inert = false) : Execution g s ({.closure r v pc'} + others) := by
  refine h.move rfl (fun _ _ => rfl) ?_ hlive
  intro hcurrent
  refine hcurrent.move (Grows.refl s r) id hpc hpc' ?_ hreleased
    (hassert (hcurrent.asserts _ (mem_cons_self _ _)))
  intro w
  split <;> omega

theorem Execution.prepare (h : Execution g s (.preparing calls r ::ₘ others)) :
    Execution g { s with depsLeft := g.initDeps } ({.submitting calls r} + others) := by
  refine h.within rfl rfl (fun _ _ => rfl) rfl ?_ ?_ ?_
  · intro u hu
    rw [mem_singleton.1 hu]
    exact Or.inl rfl
  · intro hcurrent
    obtain ⟨hcreate, hnone⟩ := hcurrent.blank ⟨calls, Or.inl (mem_cons_self _ _)⟩
    refine Current.of_noClosures ?_ none hcreate ?_ (fun _ => rfl)
      (Or.inr counters_initDeps)
    · intro u hu hr
      rcases mem_add.1 hu with hu | hu
      · rw [mem_singleton.1 hu]
        rfl
      · exact hnone u (mem_cons_of_mem hu) hr
    · intro heq
      cases heq
  · intro hinert
    cases hinert

theorem Execution.submit (hfits : g.FitsInt) (h : Execution g s (.submitting calls r ::ₘ others)) :
    Execution g s ((.caller calls ::ₘ
      Multiset.ofList ((g.roots s.depsLeft).map fun v => .closure r v .queued)) + others) := by
  have hcallers := h.callers
  rw [count_cons, if_pos (show (GraphThread.submitting calls r : GraphThread Name).isCaller = true
    from rfl)] at hcallers
  have hclosures : count isCaller (Multiset.ofList
      ((g.roots s.depsLeft).map fun v => GraphThread.closure r v .queued)) = 0 := by
    rw [count_eq_zero]
    intro u hu
    obtain ⟨v, -, rfl⟩ := List.mem_map.1 (mem_coe.1 hu)
    exact Bool.false_ne_true
  refine h.within rfl rfl (fun _ _ => rfl) ?_ ?_ ?_ ?_
  · rw [count_cons, hclosures]
    rfl
  · intro u hu
    rcases mem_cons.1 hu with rfl | hu
    · exact Or.inr rfl
    · obtain ⟨v, -, rfl⟩ := List.mem_map.1 (mem_coe.1 hu)
      exact Or.inl rfl
  · intro hcurrent
    exact hcurrent.submit hfits (by omega)
  · intro hinert
    cases hinert

/-- An inert closure sets the promise to false. -/
theorem Execution.break (h : Execution g s (.closure r v .breaking ::ₘ others)) :
    Execution g (s.modify r (·.setValue false)) ({.closure r v .counting} + others) := by
  refine h.within rfl rfl (fun r' hr' => modify_run_of_ne s hr' _) rfl ?_ ?_ ?_
  · intro u hu
    rw [mem_singleton.1 hu]
    exact Or.inl rfl
  · intro hcurrent
    refine hcurrent.move (Grows.of_modify (fun _ => id) rfl rfl rfl) ?_ rfl rfl ?_
      (Int.le_refl _) ?_
    · rw [modify_run_self]
      simp only [GraphRun.setValue]
      cases (s.run r).promise <;> simp
    · rw [modify_run_self]
      intro w
      exact Int.le_refl _
    · intro _
      exact Or.inr (hcurrent.asserts _ (mem_cons_self _ _) rfl)
  · intro _ hpromise
    refine ⟨?_, rfl, rfl, ?_, ?_, ?_⟩
    · intro u hu
      rw [mem_singleton.1 hu]
      rfl
    · rw [modify_run_self]
      exact setValue_ne_none _ _
    · rw [modify_run_self]
      rfl
    · rw [modify_run_self]
      rfl

/-- An inert closure counts. -/
theorem Execution.countUp (hfits : g.FitsInt)
    (h : Execution g s (.closure r v .counting ::ₘ others))
    (hborn : born = 0 ∨ born = {.last r} ∧ (s.run r).cnt + 1 = g.tasks) :
    Execution g (s.modify r fun run =>
      { run with cnt := run.cnt + 1, counted := v :: run.counted }) (born + others) := by
  have hmem : ∀ u ∈ born, u = .last r := by
    intro u hu
    rcases hborn with rfl | ⟨rfl, -⟩
    · exact absurd hu (notMem_zero _)
    · exact mem_singleton.1 hu
  refine h.within rfl rfl (fun r' hr' => modify_run_of_ne s hr' _) ?_ ?_ ?_ ?_
  · rcases hborn with rfl | ⟨rfl, -⟩ <;> rfl
  · intro u hu
    rw [hmem u hu]
    exact Or.inl rfl
  · intro hcurrent
    exact hcurrent.countUp hfits hborn
  · intro _ hpromise
    refine ⟨?_, rfl, rfl, ?_, ?_, ?_⟩
    · intro u hu
      rw [hmem u hu]
      rfl
    · rw [modify_run_self]
      exact hpromise
    · rw [modify_run_self]
    · rw [modify_run_self]

/-- The closure that counted last looks at the flag, or sets the promise to true. -/
theorem Execution.leave (h : Execution g s (t ::ₘ others)) (ht : t = .last r ∨ t = .completing r)
    (value : GraphRun Name → Option Bool) (hvalue : value (s.run r) ≠ none ∨ (s.run r).promise = none)
    (hborn : born = 0 ∨ born = {.completing r} ∧ t = .last r ∧ s.failed = false)
    (htrue : value (s.run r) = some true → (s.run r).promise = some true ∨ t = .completing r) :
    Execution g (s.modify r fun run => { run with promise := value run }) (born + others) := by
  have hmem : ∀ u ∈ born, u = .completing r := by
    intro u hu
    rcases hborn with rfl | ⟨rfl, -⟩
    · exact absurd hu (notMem_zero _)
    · exact mem_singleton.1 hu
  have hrun : t.run? = some r ∧ t.isCaller = false := by
    rcases ht with rfl | rfl <;> exact ⟨rfl, rfl⟩
  refine h.within hrun.1 rfl (fun r' hr' => modify_run_of_ne s hr' _) ?_ ?_ ?_ ?_
  · rw [hrun.2]
    rcases hborn with rfl | ⟨rfl, -⟩ <;> rfl
  · intro u hu
    rw [hmem u hu]
    exact Or.inl rfl
  · intro hcurrent
    have hassert := hcurrent.asserts t (mem_cons_self _ _)
    refine hcurrent.leave (Grows.of_modify (fun _ => id) rfl rfl rfl) (by rw [modify_run_self]) ht
      ?_ ?_
    · rcases hborn with hborn | ⟨hborn, rfl, hfailed⟩
      · exact Or.inl hborn
      · refine Or.inr ⟨hborn, ?_⟩
        intro _ w hw
        rw [modify_run_self]
        have hcounted := hassert rfl w hw
        rcases hcurrent.finished w hcounted with hret | hfail
        · exact ⟨hcounted, hret⟩
        · rw [hfailed] at hfail
          cases hfail
    · rw [modify_run_self]
      intro heq w hw
      rcases htrue heq with hpromise | rfl
      · exact hcurrent.value hpromise w hw
      · exact hassert rfl w hw
  · intro _ hpromise
    refine ⟨?_, rfl, rfl, ?_, ?_, ?_⟩
    · intro u hu
      rw [hmem u hu]
      rfl
    · rw [modify_run_self]
      exact hvalue.resolve_right hpromise
    · rw [modify_run_self]
    · rw [modify_run_self]

omit [DecidableEq Name] in
theorem modify_promise_self (s : GraphState Name) (r : Nat) :
    (s.modify r fun run => { run with promise := run.promise }) = s := by
  simp [GraphState.modify]

/-- Every step keeps the invariant, calls that begin quietly. -/
theorem Execution.step (hfits : g.FitsInt) (h : Execution g s (t ::ₘ others))
    (hquiet : BeginsQuietly t others) (hnext : GraphStep g s t s' born) :
    Execution g s' (born + others) := by
  cases hnext with
  | begin _ calls hready => exact h.begin hquiet hready
  | empty _ calls r htasks => exact h.early (Or.inl rfl) fun _ => names_of_tasks hfits htasks
  | cyclic _ calls r htasks hcycle => exact h.early (Or.inl rfl) fun heq => by cases heq
  | noRoots _ calls r hroots => exact h.early (Or.inr rfl) fun heq => by cases heq
  | prepare _ calls r htasks hcycle => exact h.prepare
  | submit _ calls r hroots => exact h.submit hfits
  | fetch _ r v => exact h.step_look rfl rfl (Int.le_refl _) (Int.le_refl _) (fun _ _ => trivial) rfl
  | noTask _ r v htask =>
    refine h.step_modify (Grows.of_modify (fun _ => List.mem_cons_of_mem _) rfl rfl rfl) rfl rfl rfl
      ?_ (Int.le_refl _) ?_ rfl
    · intro w
      simp only [unstarted]
      split <;> omega
    · intro _
      rw [modify_run_self]
      exact Or.inl List.mem_cons_self
  | skip _ r v htask hfailed =>
    refine h.step_look rfl rfl Int.one_nonneg (Int.le_refl _) ?_ rfl
    intro _ _
    exact Or.inr hfailed
  | load _ r v htask hfailed =>
    exact h.step_look rfl rfl (Int.le_refl _) (Int.le_refl _) (fun _ _ => trivial) rfl
  | start _ r v =>
    refine h.step_modify (Grows.of_modify (fun _ => id) rfl rfl rfl) rfl rfl rfl ?_ (Int.le_refl _)
      (fun _ => trivial) rfl
    intro w
    simp only [unstarted, List.count_cons, beq_iff_eq]
    split <;> omega
  | finish _ r v =>
    refine h.step_modify (Grows.of_modify (fun _ => List.mem_cons_of_mem _) rfl rfl rfl) rfl rfl rfl
      (fun _ => Int.le_refl _) (Int.le_refl _) ?_ rfl
    intro _
    rw [modify_run_self]
    exact Or.inl List.mem_cons_self
  | throw _ r v =>
    exact h.step_modify (Grows.of_modify (fun _ => id) rfl rfl rfl) rfl rfl rfl
      (fun _ => Int.le_refl _) Int.one_nonneg (fun _ => trivial) rfl
  | fail _ r v =>
    refine h.move rfl (fun _ _ => rfl) ?_ rfl
    intro hcurrent
    refine hcurrent.move ⟨fun _ => id, fun _ => rfl, rfl, rfl, rfl, rfl⟩ id rfl rfl
      (fun _ => Int.le_refl _) (Int.le_refl _) ?_
    intro _
    rfl
  | «break» _ r v => exact h.break
  | giveUp _ r v hfailed => exact h.step_look rfl rfl (Int.le_refl _) Int.one_nonneg (fun ha => ha) rfl
  | goOn _ r v hfailed =>
    refine h.step_look rfl rfl (Int.le_refl _) (Int.le_refl _) ?_ rfl
    intro ha hr
    exact (ha hr).resolve_right fun hfail => by rw [hfailed] at hfail; cases hfail
  | release _ r v depsLeft ready hrelease =>
    refine h.move rfl ?_ ?_ rfl
    · intro r' hr'
      exact modify_run_of_ne s hr' fun run => { run with released := v :: run.released }
    · intro hcurrent
      exact hcurrent.release hfits hrelease
  | spawn _ r v w ready =>
    refine h.within rfl rfl (fun _ _ => rfl) rfl ?_ ?_ ?_
    · intro u hu
      rcases mem_cons.1 hu with rfl | hu
      · exact Or.inl rfl
      · rw [mem_singleton.1 hu]
        exact Or.inl rfl
    · intro hcurrent
      rw [insert_eq_cons, cons_add]
      exact hcurrent.spawn
    · intro hinert
      cases hinert
  | spawned _ r v => exact h.step_look rfl rfl (Int.le_refl _) (Int.le_refl _) (fun ha => ha) rfl
  | count _ r v hcnt => exact h.countUp hfits (Or.inl rfl)
  | countLast _ r v hcnt => exact h.countUp hfits (Or.inr ⟨rfl, hcnt⟩)
  | lastFailed _ r hfailed =>
    have hleave := h.leave (Or.inl rfl) (fun run => run.promise)
      (Decidable.em _).symm (Or.inl rfl) Or.inl
    rw [modify_promise_self] at hleave
    exact hleave
  | lastGood _ r hfailed =>
    have hleave := h.leave (Or.inl rfl) (fun run => run.promise)
      (Decidable.em _).symm (Or.inr ⟨rfl, rfl, hfailed⟩) Or.inl
    rw [modify_promise_self] at hleave
    exact hleave
  | complete _ r =>
    refine h.leave (Or.inr rfl) (fun run => run.promise.or (some true)) (Or.inl ?_)
      (Or.inl rfl) fun _ => Or.inr rfl
    exact setValue_ne_none (s.run r) true

end Steps

theorem execution_start (calls : Nat) :
    Execution g GraphState.create (graphStart Name calls).threads := by
  have hmem : ∀ t ∈ (graphStart Name calls).threads, t = .caller calls :=
    fun t => mem_singleton.1
  refine ⟨?_, ?_, fun _ _ => rfl, ?_, ?_, ?_⟩
  · exact Nat.le_of_eq (count_singleton _)
  · intro t ht r hr
    rw [hmem t ht] at hr
    cases hr
  · intro r hr
    exact absurd hr (Nat.not_lt_zero _)
  · intro t ht r hr
    rw [hmem t ht] at hr
    cases hr
  · intro r hr
    cases hr

end JobThreads
