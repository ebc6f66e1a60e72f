import OddBuilder.Threads.GraphOutcome

/-!
# Runs after each other

A future that is ready with false leaves closures of its run in the pool. They
stop at the flag while it stays set, and go on when a further call of `run` has
cleared it; and a closure that has the test of the flag behind it is not stopped
at all. Under a schedule without either, runs leave each other alone.
-/

namespace JobThreads

open Interleaving JobThreadGraph GraphThread ClosurePc Multiset

variable {Name : Type} [DecidableEq Name] {g : JobThreadGraph Name}

/-- Has the test of the flag behind it, and the start of the task or the release of the edges
before it. -/
def GraphThread.passed (r : Nat) : GraphThread Name → Bool
  | .closure r' _ .starting => r' = r
  | .closure r' _ .releasing => r' = r
  | _ => false

/-- A call of `run` begins when the closures about are inert, and a closure that makes the future
ready with false does so when no closure of the run has passed its test. -/
def Undisturbed : Guard (GraphState Name) (GraphThread Name) := fun s t others =>
  BeginsQuietly t others ∧ ∀ r v, t = .closure r v .breaking → (s.run r).promise = none →
    ∀ u ∈ others, u.passed r = false

/-- Nothing comes of a run whose future is ready: its closures stop at the flag, or there are
none but inert ones. -/
def Over (s : GraphState Name) (r : Nat) (threads : Multiset (GraphThread Name)) : Prop :=
  (s.failed = true ∧ ∀ u ∈ threads, u.passed r = false) ∨
    ∀ u ∈ threads, u.run? = some r → u.inert = true

structure Settled (g : JobThreadGraph Name) (s : GraphState Name)
    (threads : Multiset (GraphThread Name)) : Prop where
  execution : Execution g s threads
  ready : ∀ r, r + 1 = s.runs → (s.run r).promise ≠ none → Over s r threads

section Steps

variable {s s' : GraphState Name} {t : GraphThread Name} {r : Nat}
  {born others : Multiset (GraphThread Name)}

omit [DecidableEq Name] in
/-- The threads that step on neither pass a test nor leave the inert ones. -/
theorem Over.step (h : Over s r (t ::ₘ others)) (hfailed : s.failed = true → s'.failed = true)
    (hpassed : s.failed = true → t.passed r = false → ∀ u ∈ born, u.passed r = false)
    (hinert : (t.run? = some r → t.inert = true) → ∀ u ∈ born, u.run? = some r → u.inert = true) :
    Over s' r (born + others) := by
  rcases h with ⟨hfail, hstop⟩ | hall
  · refine Or.inl ⟨hfailed hfail, ?_⟩
    intro u hu
    rcases mem_add.1 hu with hu | hu
    · exact hpassed hfail (hstop t (mem_cons_self _ _)) u hu
    · exact hstop u (mem_cons_of_mem hu)
  · refine Or.inr ?_
    intro u hu hrun
    rcases mem_add.1 hu with hu | hu
    · exact hinert (hall t (mem_cons_self _ _)) u hu hrun
    · exact hall u (mem_cons_of_mem hu) hrun

/-- What a step does to a run that is over. -/
theorem Over.next (h : Over s r (t ::ₘ others)) (hnext : GraphStep g s t s' born)
    (hcaller : t.isCaller = false) : Over s' r (born + others) := by
  cases hnext with
  | begin | empty | cyclic | prepare | submit | noRoots => cases hcaller
  | load _ r' v htask hfailed =>
    refine h.step (fun h => h) ?_ ?_
    · intro hfail
      rw [hfailed] at hfail
      cases hfail
    · simp [run?, GraphThread.inert, ClosurePc.inert]
  | goOn _ r' v hfailed =>
    refine h.step (fun h => h) ?_ ?_
    · intro hfail
      rw [hfailed] at hfail
      cases hfail
    · simp [run?, GraphThread.inert, ClosurePc.inert]
  | fail _ r' v =>
    refine h.step (fun _ => rfl) ?_ ?_
    · simp [passed]
    · simp [GraphThread.inert, ClosurePc.inert]
  | _ =>
    refine h.step (fun h => h) ?_ ?_
    · simp [passed]
    · simp [run?, GraphThread.inert, ClosurePc.inert]

theorem Execution.old_over (h : Execution g s (t ::ₘ others)) {r' : Nat} (hrun : t.run? = some r')
    (hr : r + 1 = s.runs) (hne : r' ≠ r) : t.inert = true := by
  have hlt := h.known t (mem_cons_self _ _) r' hrun
  exact h.inert t (mem_cons_self _ _) r' hrun (by omega)

/-- The promise of a run changes only with a step of that run. -/
theorem GraphStep.promise_of_ne (hnext : GraphStep g s t s' born) (hrun : t.run? ≠ some r) :
    (s'.run r).promise = (s.run r).promise := by
  have hmodify : ∀ (r' : Nat) (change : GraphRun Name → GraphRun Name), t.run? = some r' →
      ((s.modify r' change).run r).promise = (s.run r).promise := by
    intro r' change hr'
    have hne : r ≠ r' := by
      rintro rfl
      exact hrun hr'
    rw [modify_run_of_ne s hne]
  cases hnext with
  | empty | cyclic | noRoots | noTask | start | finish | throw | «break» | count | countLast
  | complete => exact hmodify _ _ rfl
  | release _ r' v => exact hmodify r' (fun run => { run with released := v :: run.released }) rfl
  | _ => rfl

/-- A call that ends early leaves no closure of its run. -/
theorem Current.over_early {calls : Nat} (h : Current g s r (t ::ₘ others))
    (ht : t = .preparing calls r ∨ t = .submitting calls r)
    (hothers : ∀ u ∈ others, u.isCaller = false) : Over s' r ({.caller calls} + others) := by
  obtain ⟨-, hnone⟩ := h.blank ⟨calls, by
    rcases ht with rfl | rfl
    · exact Or.inl (mem_cons_self _ _)
    · exact Or.inr (mem_cons_self _ _)⟩
  refine Or.inr ?_
  intro u hu hrun
  rcases mem_add.1 hu with hu | hu
  · rw [mem_singleton.1 hu] at hrun
    cases hrun
  · have hcaller := hnone u (mem_cons_of_mem hu) hrun
    rw [hothers u hu] at hcaller
    cases hcaller

/-- With all nodes counted there is no closure left. -/
theorem Current.over_complete (h : Current g s r (.completing r ::ₘ others)) :
    Over s' r (0 + others) := by
  have hall := h.asserts _ (mem_cons_self _ _) rfl
  have hnone := (h.submitted rfl rfl).1
  refine Or.inr ?_
  intro u hu hrun
  rw [zero_add] at hu
  cases u with
  | caller calls => cases hrun
  | preparing calls r' =>
    cases hrun
    exact absurd hu (hnone calls).1
  | submitting calls r' =>
    cases hrun
    exact absurd hu (hnone calls).2
  | closure r' v pc =>
    cases hrun
    obtain ⟨rest, hrest⟩ := exists_cons_of_mem (mem_cons_of_mem hu)
    rw [hrest] at h
    obtain ⟨hname, hcounted⟩ := h.closure_mem
    exact absurd (hall v hname).1 hcounted
  | last r' => rfl
  | completing r' => rfl

/-- The step that makes a future ready. -/
theorem Settled.becomes_ready (h : Settled g s (t ::ₘ others)) (hguard : Undisturbed s t others)
    (hnext : GraphStep g s t s' born) (hcaller : t.isCaller = false) (hr : r + 1 = s.runs)
    (hbefore : (s.run r).promise = none) (hready : (s'.run r).promise ≠ none) :
    Over s' r (born + others) := by
  have hcurrent := h.execution.current r hr
  have hrun : t.run? = some r := by
    by_contra hrun
    rw [hnext.promise_of_ne hrun] at hready
    exact hready hbefore
  have hsame : ∀ {change : GraphRun Name → GraphRun Name},
      ((s.modify r change).run r).promise ≠ none →
      (∀ run : GraphRun Name, (change run).promise = run.promise) → False := by
    intro change hset hchange
    rw [modify_run_self, hchange] at hset
    exact hset hbefore
  cases hnext with
  | begin | empty | cyclic | prepare | submit | noRoots => cases hcaller
  | «break» _ r' v =>
    cases hrun
    have hfailed := hcurrent.asserts _ (mem_cons_self _ _) rfl
    refine Or.inl ⟨hfailed, ?_⟩
    intro u hu
    rcases mem_add.1 hu with hu | hu
    · rw [mem_singleton.1 hu]
      rfl
    · exact hguard.2 r v rfl hbefore u hu
  | complete _ r' =>
    cases hrun
    exact hcurrent.over_complete
  | noTask | start | finish | throw | count | countLast =>
    cases hrun
    exact (hsame hready fun _ => rfl).elim
  | release _ r' v =>
    cases hrun
    have hset : ((s.modify r fun run => { run with released := v :: run.released }).run r).promise ≠
        none := hready
    exact (hsame hset fun _ => rfl).elim
  | _ => exact absurd hbefore hready

theorem Settled.step (hfits : g.FitsInt) (h : Settled g s (t ::ₘ others))
    (hguard : Undisturbed s t others) (hnext : GraphStep g s t s' born) :
    Settled g s' (born + others) := by
  refine ⟨h.execution.step hfits hguard.1 hnext, ?_⟩
  intro r hr hready
  by_cases hcaller : t.isCaller = true
  · have hothers := h.execution.sole_caller hcaller
    have hrun : ∀ r', t.run? = some r' → t.inert = false → s'.runs = s.runs → r' = r := by
      intro r' hr' hlive hruns
      rw [hruns] at hr
      by_contra hne
      rw [h.execution.old_over hr' hr hne] at hlive
      cases hlive
    cases hnext with
    | begin =>
      have hnew : r = s.runs := Nat.succ.inj hr
      exact absurd (congrArg GraphRun.promise (h.execution.future r (Nat.le_of_eq hnew.symm))) hready
    | empty _ calls r' | cyclic _ calls r' =>
      cases hrun r' rfl rfl rfl
      exact (h.execution.current _ hr).over_early (Or.inl rfl) hothers
    | noRoots _ calls r' =>
      cases hrun r' rfl rfl rfl
      exact (h.execution.current _ hr).over_early (Or.inr rfl) hothers
    | prepare _ calls r' =>
      cases hrun r' rfl rfl rfl
      have hblank := (h.execution.current _ hr).blank ⟨calls, Or.inl (mem_cons_self _ _)⟩
      exact absurd (congrArg GraphRun.promise hblank.1) hready
    | submit _ calls r' =>
      cases hrun r' rfl rfl rfl
      have hblank := (h.execution.current _ hr).blank ⟨calls, Or.inr (mem_cons_self _ _)⟩
      exact absurd (congrArg GraphRun.promise hblank.1) hready
    | _ => cases hcaller
  · have hcaller' : t.isCaller = false := Bool.not_eq_true _ ▸ hcaller
    rw [(hnext.not_caller hcaller').1] at hr
    by_cases hbefore : (s.run r).promise = none
    · exact h.becomes_ready hguard hnext hcaller' hr hbefore hready
    · exact (h.ready r hr hbefore).next hnext hcaller'

/-- A closure of a run that is over touches neither tasks nor counters nor the flag. -/
theorem Over.untouched (h : Over s r (t ::ₘ others)) (hrun : t.run? = some r)
    (hcaller : t.isCaller = false) (hnext : GraphStep g s t s' born) :
    s'.depsLeft = s.depsLeft ∧ s'.failed = s.failed ∧
      ∀ r', (s'.run r').started = (s.run r').started := by
  have hlive : t.inert = false → s.failed = true ∧ t.passed r = false := by
    intro hinert
    rcases h with ⟨hfailed, hstop⟩ | hall
    · exact ⟨hfailed, hstop t (mem_cons_self _ _)⟩
    · rw [hall t (mem_cons_self _ _) hrun] at hinert
      cases hinert
  have hsame : ∀ (r' : Nat) (change : GraphRun Name → GraphRun Name),
      (∀ run : GraphRun Name, (change run).started = run.started) →
      ∀ r'', ((s.modify r' change).run r'').started = (s.run r'').started := by
    intro r' change hchange r''
    by_cases hr : r'' = r'
    · subst hr
      rw [modify_run_self]
      exact hchange _
    · rw [modify_run_of_ne s hr]
  cases hnext with
  | begin | empty | cyclic | prepare | submit | noRoots => cases hcaller
  | start _ r' v =>
    cases hrun
    exact absurd (hlive rfl).2 (by simp [passed])
  | release _ r' v =>
    cases hrun
    exact absurd (hlive rfl).2 (by simp [passed])
  | fail _ r' v => exact ⟨rfl, (hlive rfl).1.symm, fun _ => rfl⟩
  | noTask | finish | throw | «break» | count | countLast | complete =>
    exact ⟨rfl, rfl, hsame _ _ fun _ => rfl⟩
  | _ => exact ⟨rfl, rfl, fun _ => rfl⟩

end Steps

/-- Two tasks with no edge between them. -/
def pair : JobThreadGraph Nat := ⟨[⟨0, true, []⟩, ⟨1, true, []⟩], by decide, by decide⟩

end JobThreads
