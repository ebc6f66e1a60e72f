import Mathlib.Data.List.Range
import OddBuilder.Threads.GraphExecution

/-!
# The outcome of one run

One call of `run` on a graph that was not run before, with every order in which
the pool takes the closures.
-/

namespace JobThreads

open Interleaving JobThreadGraph GraphThread ClosurePc Multiset

variable {Name : Type} [DecidableEq Name] {g : JobThreadGraph Name}

/-- The threads of the only call. A task that threw has set the promise to false, or its
closure is about to. -/
structure SingleCall (g : JobThreadGraph Name) (s : GraphState Name)
    (threads : Multiset (GraphThread Name)) : Prop where
  execution : Execution g s threads
  only : s.runs ≤ 1
  caller : ∀ calls, .caller (calls + 1) ∈ threads → calls = 0 ∧ s.runs = 0
  within : ∀ calls r, .preparing calls r ∈ threads ∨ .submitting calls r ∈ threads → calls = 0
  checked : ∀ calls r, .submitting calls r ∈ threads → g.tasks ≠ 0 ∧ g.hasCycleLocked = false
  threw : ∀ v ∈ (s.run 0).threw, (s.run 0).promise = some false ∨
    .closure 0 v .failing ∈ threads ∨ .closure 0 v .breaking ∈ threads

section Steps

variable {s s' : GraphState Name} {t : GraphThread Name}
  {born others threads : Multiset (GraphThread Name)}

/-- Once set, a promise keeps its value. -/
theorem GraphStep.promise_kept (hnext : GraphStep g s t s' born) {r : Nat} {b : Bool}
    (h : (s.run r).promise = some b) : (s'.run r).promise = some b := by
  have hmodify : ∀ (r' : Nat) (change : GraphRun Name → GraphRun Name),
      (∀ run : GraphRun Name, run.promise = some b → (change run).promise = some b) →
      ((s.modify r' change).run r).promise = some b := by
    intro r' change hchange
    by_cases hr : r = r'
    · subst hr
      rw [modify_run_self]
      exact hchange _ h
    · rw [modify_run_of_ne s hr]
      exact h
  cases hnext with
  | empty | cyclic | noRoots | «break» | complete =>
    exact hmodify _ _ fun run hrun => setValue_of_some run hrun _
  | noTask | start | finish | throw | count | countLast => exact hmodify _ _ fun _ hrun => hrun
  | release _ r' v => exact hmodify r' (fun run => { run with released := v :: run.released }) fun _ hrun => hrun
  | _ => exact h

/-- A call that begins in a graph that was not run begins quietly. -/
theorem SingleCall.quiet (h : SingleCall g s (t ::ₘ others)) : BeginsQuietly t others := by
  rintro calls rfl u hu
  have hruns := (h.caller calls (mem_cons_self _ _)).2
  have hcallers := h.execution.callers
  rw [count_cons] at hcallers
  have hcaller := count_eq_zero.1 (Nat.le_zero.1 (Nat.le_of_succ_le_succ hcallers)) u hu
  cases hrun : u.run? with
  | none =>
    cases u with
    | caller calls' => exact absurd rfl hcaller
    | _ => cases hrun
  | some r =>
    have hlt := h.execution.known u (mem_cons_of_mem hu) r hrun
    rw [hruns] at hlt
    exact absurd hlt (Nat.not_lt_zero r)

/-- A closure neither makes a caller nor begins a run. -/
theorem GraphStep.not_caller (hnext : GraphStep g s t s' born) (ht : t.isCaller = false) :
    s'.runs = s.runs ∧ ∀ u ∈ born, u.isCaller = false := by
  cases hnext with
  | begin | empty | cyclic | prepare | submit | noRoots => cases ht
  | spawn _ r v w ready =>
    refine ⟨rfl, ?_⟩
    intro u hu
    rcases mem_cons.1 hu with rfl | hu
    · rfl
    · rw [mem_singleton.1 hu]
      rfl
  | count | lastFailed | complete => exact ⟨rfl, fun u hu => absurd hu (notMem_zero u)⟩
  | _ =>
    refine ⟨rfl, ?_⟩
    intro u hu
    rw [mem_singleton.1 hu]
    rfl

theorem Execution.sole_caller (h : Execution g s (t ::ₘ others)) (ht : t.isCaller = true) :
    ∀ u ∈ others, u.isCaller = false := by
  have hcallers := h.callers
  rw [count_cons, if_pos ht] at hcallers
  intro u hu
  exact Bool.not_eq_true _ ▸ count_eq_zero.1 (Nat.le_zero.1 (Nat.le_of_succ_le_succ hcallers)) u hu

/-- What the step of a task that threw does for its node. -/
theorem SingleCall.threw_step (h : SingleCall g s (t ::ₘ others)) (hnext : GraphStep g s t s' born) :
    ∀ v ∈ (s'.run 0).threw, (s'.run 0).promise = some false ∨
      .closure 0 v .failing ∈ born + others ∨ .closure 0 v .breaking ∈ born + others := by
  -- a node whose closure is not the one that steps stays as it is
  have hother : ∀ v, v ∈ (s.run 0).threw → t ≠ .closure 0 v .failing → t ≠ .closure 0 v .breaking →
      (s'.run 0).promise = some false ∨
        .closure 0 v .failing ∈ born + others ∨ .closure 0 v .breaking ∈ born + others := by
    intro v hv hfailing hbreaking
    rcases h.threw v hv with hpromise | hmem | hmem
    · exact Or.inl (hnext.promise_kept hpromise)
    · refine Or.inr (Or.inl (mem_add.2 (Or.inr ?_)))
      exact (mem_cons.1 hmem).resolve_left (Ne.symm hfailing)
    · refine Or.inr (Or.inr (mem_add.2 (Or.inr ?_)))
      exact (mem_cons.1 hmem).resolve_left (Ne.symm hbreaking)
  intro v hv
  have hthrew : ∀ {r : Nat} {change : GraphRun Name → GraphRun Name},
      v ∈ ((s.modify r change).run 0).threw →
      (∀ run : GraphRun Name, (change run).threw = run.threw) → v ∈ (s.run 0).threw := by
    intro r change hmem hchange
    by_cases hr : 0 = r
    · subst hr
      rw [modify_run_self, hchange] at hmem
      exact hmem
    · rw [modify_run_of_ne s hr] at hmem
      exact hmem
  cases hnext with
  | fail _ r w =>
    by_cases heq : GraphThread.closure r w .failing = .closure 0 v .failing
    · cases heq
      exact Or.inr (Or.inr (mem_add.2 (Or.inl (mem_singleton_self _))))
    · exact hother v hv heq (by simp)
  | «break» _ r w =>
    have hv' := hthrew hv fun _ => rfl
    by_cases heq : GraphThread.closure r w .breaking = .closure 0 v .breaking
    · cases heq
      -- a promise that were true would have counted this closure
      refine Or.inl ?_
      have hruns : 0 < s.runs := h.execution.known _ (mem_cons_self _ _) 0 rfl
      have hcurrent := h.execution.current 0 (by have := h.only; omega)
      obtain ⟨hname, hcounted⟩ := hcurrent.closure_mem
      rw [modify_run_self]
      cases hpromise : (s.run 0).promise with
      | none => simp [GraphRun.setValue, hpromise]
      | some value =>
        cases value with
        | true => exact absurd (hcurrent.value hpromise v hname).1 hcounted
        | false => simp [GraphRun.setValue, hpromise]
    · exact hother v hv' (by simp) heq
  | throw _ r w =>
    by_cases hr : r = 0
    · subst hr
      rcases List.mem_cons.1 hv with rfl | hv
      · exact Or.inr (Or.inl (mem_add.2 (Or.inl (mem_singleton_self _))))
      · exact hother v hv (by simp) (by simp)
    · rw [modify_run_of_ne s (Ne.symm hr)] at hv
      exact hother v hv (by simp) (by simp)
  | empty | cyclic | noRoots | noTask | start | finish | count | countLast | complete =>
    exact hother v (hthrew hv fun _ => rfl) (by simp) (by simp)
  | release _ r w =>
    have hmem : v ∈ ((s.modify r fun run => { run with released := w :: run.released }).run 0).threw :=
      hv
    exact hother v (hthrew hmem fun _ => rfl) (by simp) (by simp)
  | _ => exact hother v hv (by simp) (by simp)

theorem SingleCall.step (hfits : g.FitsInt) (h : SingleCall g s (t ::ₘ others))
    (hnext : GraphStep g s t s' born) : SingleCall g s' (born + others) := by
  have hexecution := h.execution.step hfits h.quiet hnext
  have hthrew := h.threw_step hnext
  by_cases ht : t.isCaller = true
  · have hothers := h.execution.sole_caller ht
    have hmem : ∀ {u : GraphThread Name}, u.isCaller = true → u ∈ born + others → u ∈ born := by
      intro u hu hmem
      refine (mem_add.1 hmem).resolve_right fun hin => ?_
      rw [hothers u hin] at hu
      cases hu
    cases hnext with
    | begin _ calls hready =>
      obtain ⟨hcalls, hruns⟩ := h.caller calls (mem_cons_self _ _)
      refine ⟨hexecution, ?_, ?_, ?_, ?_, hthrew⟩
      · simp [hruns]
      · intro calls' hcall
        cases mem_singleton.1 (hmem rfl hcall)
      · rintro calls' r (hcall | hcall)
        · cases mem_singleton.1 (hmem rfl hcall)
          exact hcalls
        · cases mem_singleton.1 (hmem rfl hcall)
      · intro calls' r hcall
        cases mem_singleton.1 (hmem rfl hcall)
    | empty _ calls r | cyclic _ calls r | noRoots _ calls r =>
      have hcalls : calls = 0 := h.within calls r (by simp)
      refine ⟨hexecution, h.only, ?_, ?_, ?_, hthrew⟩
      · intro calls' hcall
        cases (mem_singleton.1 (hmem rfl hcall)).trans (congrArg GraphThread.caller hcalls)
      · rintro calls' r' (hcall | hcall)
        · cases mem_singleton.1 (hmem rfl hcall)
        · cases mem_singleton.1 (hmem rfl hcall)
      · intro calls' r' hcall
        cases mem_singleton.1 (hmem rfl hcall)
    | prepare _ calls r htasks hcycle =>
      refine ⟨hexecution, h.only, ?_, ?_, ?_, hthrew⟩
      · intro calls' hcall
        cases mem_singleton.1 (hmem rfl hcall)
      · rintro calls' r' (hcall | hcall)
        · cases mem_singleton.1 (hmem rfl hcall)
        · cases mem_singleton.1 (hmem rfl hcall)
          exact h.within calls r (Or.inl (mem_cons_self _ _))
      · intro calls' r' hcall
        exact ⟨htasks, hcycle⟩
    | submit _ calls r =>
      have hcalls : calls = 0 := h.within calls r (Or.inr (mem_cons_self _ _))
      have hsole : ∀ {u : GraphThread Name}, u.isCaller = true → u ∈ (.caller calls ::ₘ
          Multiset.ofList ((g.roots s.depsLeft).map fun v => .closure r v .queued)) + others →
          u = .caller calls := by
        intro u hu hin
        rcases mem_cons.1 (hmem hu hin) with heq | hin
        · exact heq
        · obtain ⟨v, -, rfl⟩ := List.mem_map.1 (mem_coe.1 hin)
          cases hu
      refine ⟨hexecution, h.only, ?_, ?_, ?_, hthrew⟩
      · intro calls' hcall
        cases (hsole rfl hcall).trans (congrArg GraphThread.caller hcalls)
      · rintro calls' r' (hcall | hcall)
        · cases hsole rfl hcall
        · cases hsole rfl hcall
      · intro calls' r' hcall
        cases hsole rfl hcall
    | _ => cases ht
  · obtain ⟨hruns, hborn⟩ := hnext.not_caller (Bool.not_eq_true _ ▸ ht)
    have hmem : ∀ {u : GraphThread Name}, u.isCaller = true → u ∈ born + others →
        u ∈ t ::ₘ others := by
      intro u hu hmem
      refine mem_cons_of_mem ((mem_add.1 hmem).resolve_left fun hin => ?_)
      rw [hborn u hin] at hu
      cases hu
    refine ⟨hexecution, ?_, ?_, ?_, ?_, hthrew⟩
    · rw [hruns]
      exact h.only
    · intro calls hcall
      rw [hruns]
      exact h.caller calls (hmem rfl hcall)
    · intro calls r hcall
      exact h.within calls r (hcall.imp (hmem rfl) (hmem rfl))
    · intro calls r hcall
      exact h.checked calls r (hmem rfl hcall)

end Steps

theorem singleCall_start : SingleCall g GraphState.create (graphStart Name 1).threads := by
  have hmem : ∀ t ∈ (graphStart Name 1).threads, t = .caller 1 := fun t => mem_singleton.1
  refine ⟨execution_start 1, Nat.zero_le 1, ?_, ?_, ?_, ?_⟩
  · intro calls hcall
    cases hmem _ hcall
    exact ⟨rfl, rfl⟩
  · rintro calls r (hcall | hcall)
    · cases hmem _ hcall
    · cases hmem _ hcall
  · intro calls r hcall
    cases hmem _ hcall
  · intro v hv
    cases hv

theorem singleCall_of_reachable (hfits : g.FitsInt) {c : Config (GraphState Name) (GraphThread Name)}
    (h : Reachable (GraphStep g) (graphStart Name 1) c) : SingleCall g c.shared c.threads :=
  h.invariant singleCall_start fun _ _ _ _ _ => SingleCall.step hfits

/-- What one run of a graph is to be, in a state of it. -/
structure CorrectRun (g : JobThreadGraph Name) (c : Config (GraphState Name) (GraphThread Name)) :
    Prop where
  /-- No task is started twice, and none before all it depends on returned. -/
  orderly : Orderly g (c.shared.run 0)
  /-- The promise is set by the call itself only when it has no value, and keeps its value. -/
  unset : ∀ calls, .preparing calls 0 ∈ c.threads ∨ .submitting calls 0 ∈ c.threads →
    (c.shared.run 0).promise = none
  kept : ∀ c' b, Step (GraphStep g) c c' → (c.shared.run 0).promise = some b →
    (c'.shared.run 0).promise = some b
  /-- The call sets it to false exactly when there is a cycle. -/
  atOnce : ∀ calls s' born, .preparing calls 0 ∈ c.threads →
    GraphStep g c.shared (.preparing calls 0) s' born →
      ((s'.run 0).promise = some false ↔ ∃ v, Relation.TransGen g.Edge v v)
  submits : ∀ calls s' born, .submitting calls 0 ∈ c.threads →
    GraphStep g c.shared (.submitting calls 0) s' born → (s'.run 0).promise = none
  /-- True is for a run in which every task returned. -/
  good : (c.shared.run 0).promise = some true → ∀ v ∈ g.names, v ∈ (c.shared.run 0).returned
  /-- False is the outcome when all is done and a task threw. -/
  bad : (∀ c', ¬ Step (GraphStep g) c c') → (c.shared.run 0).threw ≠ [] →
    (c.shared.run 0).promise = some false

section Outcome

variable {c : Config (GraphState Name) (GraphThread Name)}

theorem SingleCall.current (h : SingleCall g c.shared c.threads) {t : GraphThread Name}
    (ht : t ∈ c.threads) (hrun : t.run? = some 0) : Current g c.shared 0 c.threads := by
  have hlt := h.execution.known t ht 0 hrun
  have hle := h.only
  exact h.execution.current 0 (by omega)

/-- Before the call, or with the run under way. -/
theorem SingleCall.create_or_current (h : SingleCall g c.shared c.threads) :
    c.shared.run 0 = .create ∨ Current g c.shared 0 c.threads := by
  rcases Nat.eq_zero_or_pos c.shared.runs with hzero | hpos
  · exact Or.inl (h.execution.future 0 (Nat.le_of_eq hzero))
  · have hle := h.only
    exact Or.inr (h.execution.current 0 (by omega))

theorem SingleCall.unset (h : SingleCall g c.shared c.threads) {calls : Nat}
    (hcall : .preparing calls 0 ∈ c.threads ∨ .submitting calls 0 ∈ c.threads) :
    c.shared.run 0 = .create := by
  rcases hcall with hcall | hcall
  · exact ((h.current hcall rfl).blank ⟨calls, Or.inl hcall⟩).1
  · exact ((h.current hcall rfl).blank ⟨calls, Or.inr hcall⟩).1

theorem no_cycle_of_tasks (hfits : g.FitsInt) (h : g.tasks = 0) :
    ¬ ∃ v, Relation.TransGen g.Edge v v := by
  rintro ⟨v, hcycle⟩
  obtain ⟨w, hedge, -⟩ := Relation.TransGen.head'_iff.1 hcycle
  have hsource := hedge.source
  rw [names_of_tasks hfits h] at hsource
  simp at hsource

/-- Every run with all orders of its closures is correct, for a graph whose numbers of nodes and
edges fit an `int`. -/
theorem graph_run_correct (hfits : g.FitsInt) (hc : Reachable (GraphStep g) (graphStart Name 1) c) :
    CorrectRun g c := by
  have h := singleCall_of_reachable hfits hc
  refine ⟨?_, ?_, ?_, ?_, ?_, ?_, ?_⟩
  · rcases h.create_or_current with hcreate | hcurrent
    · rw [hcreate]
      exact ⟨List.nodup_nil, by simp [GraphRun.create]⟩
    · exact hcurrent.orderly
  · intro calls hcall
    rw [h.unset hcall]
    rfl
  · rintro c' b ⟨others, -, hnext⟩ hpromise
    exact hnext.promise_kept hpromise
  · intro calls s' born hcall hnext
    have hcreate := h.unset (Or.inl hcall)
    cases hnext with
    | empty _ _ _ htasks =>
      rw [modify_run_self, hcreate]
      exact iff_of_false (by simp [GraphRun.setValue, GraphRun.create]) (no_cycle_of_tasks hfits htasks)
    | cyclic _ _ _ htasks hcycle =>
      rw [modify_run_self, hcreate]
      exact iff_of_true rfl (hasCycleLocked_iff.1 hcycle)
    | prepare _ _ _ htasks hcycle =>
      rw [← hasCycleLocked_iff, hcycle, show ({ c.shared with depsLeft := g.initDeps } :
        GraphState Name).run 0 = c.shared.run 0 from rfl, hcreate]
      exact iff_of_false (by simp [GraphRun.create]) Bool.false_ne_true
  · intro calls s' born hcall hnext
    have hcreate := h.unset (Or.inr hcall)
    cases hnext with
    | submit =>
      rw [hcreate]
      rfl
    | noRoots _ _ _ hroots =>
      -- a graph that passed the check has a root
      obtain ⟨htasks, hcycle⟩ := h.checked calls 0 hcall
      have hnames : g.names ≠ [] := by
        intro hnil
        refine htasks ?_
        rw [JobThreadGraph.tasks, List.map_eq_nil_iff.1 hnil]
        rfl
      have hcounters : g.Counters c.shared.depsLeft [] := by
        rcases (h.current hcall rfl).counters with hnone | hcounters
        · exact absurd hcall (hnone.1 calls)
        · rw [hcreate] at hcounters
          exact hcounters
      exact absurd hroots (exists_root hfits hcycle hnames hcounters)
  · intro hpromise v hv
    rcases h.create_or_current with hcreate | hcurrent
    · rw [hcreate] at hpromise
      cases hpromise
    · exact (hcurrent.value hpromise v hv).2
  · intro hdone hthrew
    obtain ⟨v, hv⟩ := List.exists_mem_of_ne_nil _ hthrew
    rcases h.threw v hv with hpromise | hmem | hmem
    · exact hpromise
    · obtain ⟨c', hstep⟩ := exists_step hmem (GraphStep.fail c.shared 0 v)
      exact absurd hstep (hdone c')
    · obtain ⟨c', hstep⟩ := exists_step hmem (GraphStep.break c.shared 0 v)
      exact absurd hstep (hdone c')

end Outcome

/-- Two tasks, the second after the first. -/
def chain : JobThreadGraph Nat := ⟨[⟨0, true, [1]⟩, ⟨1, true, []⟩], by decide, by decide⟩

theorem chain_fits : chain.FitsInt := by
  refine ⟨by decide, ?_⟩
  intro v
  have hle : List.count v [1] ≤ 1 := List.count_le_length
  simp only [JobThreadGraph.indegree, chain, List.map_cons, List.map_nil, List.sum_cons,
    List.sum_nil, List.count_nil]
  omega

/-- A run in which the first task was submitted. -/
theorem chain_submitted : ∃ c, Reachable (GraphStep chain) (graphStart Nat 1) c ∧
    .closure 0 0 .queued ∈ c.threads ∧ CorrectRun chain c := by
  have hstart : Reachable (GraphStep chain) (graphStart Nat 1) ⟨.create, {.caller 1}⟩ :=
    Reachable.refl _
  have hbegin := hstart.turn 0 rfl (GraphStep.begin _ 0 fun r hr => absurd hr (Nat.not_lt_zero r))
  have hprepare := hbegin.turn 0 rfl (GraphStep.prepare _ 0 0 (by decide) (by decide))
  have hsubmit := hprepare.turn 0 rfl (GraphStep.submit _ 0 0 (by decide))
  have hroots : chain.roots chain.initDeps = [0] := by decide
  refine ⟨_, hsubmit, ?_, graph_run_correct chain_fits hsubmit⟩
  simp [hroots]

/-- As many nodes as an `int` has values. -/
def huge : JobThreadGraph Nat where
  nodes := (List.range (2 ^ 32)).map fun v => ⟨v, true, []⟩
  nodup := by
    rw [List.map_map]
    exact List.nodup_range.map fun _ _ h => h
  known := by
    intro node hnode dep hdep
    obtain ⟨v, -, rfl⟩ := List.mem_map.1 hnode
    simp at hdep

/-- The number of nodes is zero as an `int`: the future is true at once. -/
theorem huge_runs_nothing : ∃ c, Reachable (GraphStep huge) (graphStart Nat 1) c ∧
    (c.shared.run 0).promise = some true ∧ ∃ v ∈ huge.names, v ∉ (c.shared.run 0).returned := by
  have htasks : huge.tasks = 0 := by
    rw [JobThreadGraph.tasks, huge, List.length_map, List.length_range]
    rfl
  have hstart : Reachable (GraphStep huge) (graphStart Nat 1) ⟨.create, {.caller 1}⟩ :=
    Reachable.refl _
  have hbegin := hstart.turn 0 rfl (GraphStep.begin _ 0 fun r hr => absurd hr (Nat.not_lt_zero r))
  have hempty := hbegin.turn 0 rfl (GraphStep.empty _ 0 0 htasks)
  refine ⟨_, hempty, rfl, 0, ?_, ?_⟩
  · rw [JobThreadGraph.names, huge, List.map_map]
    exact List.mem_map.2 ⟨0, List.mem_range.2 (by decide), rfl⟩
  · exact List.not_mem_nil

end JobThreads
