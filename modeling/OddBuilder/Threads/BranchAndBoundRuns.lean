import OddBuilder.Threads.BranchAndBound

/-!
# The result of a search

Four invariants: the counter and the nodes of the tasks, the lock and the
incumbent, the solutions that are still to come, and the result that the caller
reads.
-/

namespace JobThreads

open Interleaving Multiset

variable {State Cost : Type} [LinearOrder Cost] [Inhabited State] [Inhabited Cost]

namespace BnbThread

/-- The nodes a thread has in work or will submit. -/
def nodes : BnbThread State Cost → Multiset State
  | .launching root => {root}
  | .task n _ => {n}
  | .submitting first rest => first ::ₘ Multiset.ofList rest
  | _ => 0

/-- The nodes a thread will still search. -/
def left : BnbThread State Cost → Multiset State
  | .task _ .pruning => 0
  | .task _ .writing => 0
  | .task _ .flagging => 0
  | .task _ .unlocking => 0
  | .task _ .finishing => 0
  | t => t.nodes

def holds : BnbThread State Cost → Bool
  | .task _ .locked => true
  | .task _ .storing => true
  | .task _ .writing => true
  | .task _ .flagging => true
  | .task _ .unlocking => true
  | _ => false

/-- Has stored the cost of a new incumbent and not yet all of it. -/
def midway : BnbThread State Cost → Bool
  | .task _ .writing => true
  | .task _ .flagging => true
  | _ => false

def reads : BnbThread State Cost → Bool
  | .reading _ _ => true
  | .returned _ => true
  | _ => false

/-- What the test of the node has shown. -/
def tested (p : BnbProblem State Cost) : BnbThread State Cost → Prop
  | .task n .locking => p.isSolution n = true
  | .task n .locked => p.isSolution n = true
  | .task n .storing => p.isSolution n = true
  | .task n .writing => p.isSolution n = true
  | .task n .flagging => p.isSolution n = true
  | .task n .branching => p.isSolution n = false
  | _ => True

/-- What a holder of the lock knows of the incumbent. -/
def promises (p : BnbProblem State Cost) (root : State) (initialBest : Cost)
    (s : BnbContext State Cost) : BnbThread State Cost → Prop
  | .task n .storing => p.objective n < s.bestCost
  | .task n .writing =>
    p.objective n = s.bestCost ∧ p.objective n < initialBest ∧ p.Solution root n
  | .task n .flagging => p.objective n = s.bestCost ∧ p.objective n < initialBest ∧
    p.Solution root n ∧ s.bestState = n
  | _ => True

/-- What was read is what is there. -/
def agrees (s : BnbContext State Cost) : BnbThread State Cost → Prop
  | .reading .found _ => True
  | .reading .bestState res => res.found = s.found
  | .reading .bestCost res => res.found = s.found ∧ res.bestState = s.bestState
  | .reading _ res =>
    res.found = s.found ∧ res.bestState = s.bestState ∧ res.bestCost = s.bestCost
  | .returned res =>
    res.found = s.found ∧ res.bestState = s.bestState ∧ res.bestCost = s.bestCost
  | _ => True

omit [LinearOrder Cost] [Inhabited State] [Inhabited Cost] in
theorem mem_nodes_of_left {t : BnbThread State Cost} {n : State} (h : n ∈ t.left) :
    n ∈ t.nodes := by
  cases t with
  | task m pc => cases pc <;> simp [left, nodes] at h ⊢ <;> exact h
  | _ => exact h

omit [LinearOrder Cost] [Inhabited State] [Inhabited Cost] in
theorem nodes_eq_zero {threads : Multiset (BnbThread State Cost)}
    (h : threads.bind nodes = 0) : ∀ t ∈ threads, t.nodes = 0 := by
  intro t ht
  apply eq_zero_of_forall_notMem
  intro n hn
  exact notMem_zero n (h ▸ mem_bind.2 ⟨t, ht, hn⟩)

omit [Inhabited State] [Inhabited Cost] in
theorem promises_of_not_holds {p : BnbProblem State Cost} {root : State} {initialBest : Cost}
    {s : BnbContext State Cost} {t : BnbThread State Cost} (h : t.holds = false) :
    t.promises p root initialBest s := by
  cases t with
  | task n pc =>
    cases pc
    case storing | writing | flagging => cases h
    all_goals trivial
  | _ => trivial

omit [LinearOrder Cost] [Inhabited State] [Inhabited Cost] in
theorem not_midway_of_not_holds {t : BnbThread State Cost} (h : t.holds = false) :
    t.midway = false := by
  cases t with
  | task n pc =>
    cases pc
    case writing | flagging => cases h
    all_goals rfl
  | _ => rfl

end BnbThread

open BnbThread

variable {p : BnbProblem State Cost} {root : State} {initialBest : Cost}
  {s s' : BnbContext State Cost} {t : BnbThread State Cost}
  {born others : Multiset (BnbThread State Cost)}

theorem BnbStep.tested (h : BnbStep p s t s' born) (ht : t.tested p) :
    ∀ u ∈ born, u.tested p := by
  cases h <;> simp_all [BnbThread.tested]

structure Accounted (p : BnbProblem State Cost) (root : State) (s : BnbContext State Cost)
    (threads : Multiset (BnbThread State Cost)) : Prop where
  frontier : p.Frontier root (threads.bind nodes)
  pending : s.pendingTasks = BitVec.ofNat 32 (threads.bind nodes).card

/-- A step leaves the nodes, branches one or finishes one. -/
theorem BnbStep.nodes_cases (h : BnbStep p s t s' born) :
    (born.bind nodes = t.nodes ∧ s'.pendingTasks = s.pendingTasks) ∨
      (∃ n, t = .task n .branching ∧ born.bind nodes = Multiset.ofList (p.branch n) ∧
        s'.pendingTasks = s.pendingTasks + p.netChange n) ∨
      ∃ n, t = .task n .finishing ∧ born.bind nodes = 0 ∧
        s'.pendingTasks = s.pendingTasks - 1 := by
  cases h with
  | branch _ n first rest hbranch =>
    right; left
    exact ⟨n, rfl, by simp [nodes, hbranch], rfl⟩
  | finish _ n =>
    right; right
    exact ⟨n, rfl, by simp, rfl⟩
  | finishLast _ n =>
    right; right
    exact ⟨n, rfl, by simp [nodes], rfl⟩
  | submit _ first child rest =>
    left
    refine ⟨?_, rfl⟩
    simp only [nodes, insert_eq_cons, cons_bind, singleton_bind, singleton_add]
    exact cons_swap _ _ _
  | _ =>
    left
    exact ⟨by simp [nodes], rfl⟩

theorem Accounted.step (h : Accounted p root s (t ::ₘ others)) (ht : t.tested p)
    (hnext : BnbStep p s t s' born) : Accounted p root s' (born + others) := by
  obtain ⟨hfrontier, hpending⟩ := h
  rw [cons_bind] at hfrontier hpending
  rcases hnext.nodes_cases with ⟨hnodes, hsame⟩ | ⟨n, rfl, hnodes, hnet⟩ | ⟨n, rfl, hnodes, hdec⟩
  · constructor
    · rw [add_bind, hnodes]
      exact hfrontier
    · rw [add_bind, hnodes, hsame]
      exact hpending
  · constructor
    · rw [add_bind, hnodes]
      exact hfrontier.branch ht
    · rw [add_bind, hnodes, hnet, hpending]
      simp only [nodes, BnbProblem.netChange, card_add, card_singleton, coe_card]
      bv_omega
  · constructor
    · rw [add_bind, hnodes, zero_add]
      exact hfrontier.drop
    · rw [add_bind, hnodes, hdec, hpending, zero_add]
      simp only [nodes, card_add, card_singleton]
      bv_omega

omit [LinearOrder Cost] [Inhabited State] [Inhabited Cost] in
/-- The counter is zero only when no node is unfinished. -/
theorem Accounted.nodes_eq_zero {threads : Multiset (BnbThread State Cost)}
    (h : Accounted p root s threads) (hfits : p.FitsInt root) (hzero : s.pendingTasks = 0) :
    threads.bind nodes = 0 := by
  have hcard := hfits _ h.frontier
  have hofNat : BitVec.ofNat 32 (threads.bind nodes).card = 0 := h.pending.symm.trans hzero
  have hmod := congrArg BitVec.toNat hofNat
  rw [BitVec.toNat_ofNat, Nat.mod_eq_of_lt (by omega)] at hmod
  exact card_eq_zero.1 hmod

/-- The best so far: what was given, or a solution. -/
def Incumbent (p : BnbProblem State Cost) (root : State) (initialBest : Cost)
    (s : BnbContext State Cost) : Prop :=
  (s.found = false ∧ s.bestCost = initialBest) ∨
    (s.found = true ∧ s.bestCost < initialBest ∧ p.Solution root s.bestState ∧
      p.objective s.bestState = s.bestCost)

structure Locked (p : BnbProblem State Cost) (root : State) (initialBest : Cost)
    (s : BnbContext State Cost) (threads : Multiset (BnbThread State Cost)) : Prop where
  holders : count holds threads = if s.stateMutex then 1 else 0
  promised : ∀ t ∈ threads, t.promises p root initialBest s
  incumbent : (∀ t ∈ threads, t.midway = false) → Incumbent p root initialBest s
  bounded : s.bestCost ≤ initialBest

section Lock

omit [Inhabited State] [Inhabited Cost]

/-- Nobody else is within the lock. -/
theorem Locked.alone (h : Locked p root initialBest s (t ::ₘ others)) (ht : t.holds = true) :
    s.stateMutex = true ∧ ∀ u ∈ others, u.holds = false := by
  have hcount := h.holders
  rw [count_cons, if_pos ht] at hcount
  cases hmutex : s.stateMutex with
  | false => simp [hmutex] at hcount
  | true =>
    refine ⟨rfl, ?_⟩
    rw [hmutex] at hcount
    intro u hu
    rw [← Bool.not_eq_true]
    exact count_eq_zero.1 (Nat.succ.inj hcount) u hu

/-- Outside the lock the incumbent is only read. -/
theorem Locked.frame (h : Locked p root initialBest s (t ::ₘ others)) (ht : t.holds = false)
    (hborn : ∀ u ∈ born, u.holds = false) (hmutex : s'.stateMutex = s.stateMutex)
    (hcost : s'.bestCost = s.bestCost) (hstate : s'.bestState = s.bestState)
    (hfound : s'.found = s.found) : Locked p root initialBest s' (born + others) := by
  constructor
  · have hnone : count holds born = 0 := by
      rw [count_eq_zero]
      intro u hu
      rw [hborn u hu]
      exact Bool.false_ne_true
    have hcount := h.holders
    rw [count_cons, if_neg (by simp [ht])] at hcount
    rw [count_add, hnone, zero_add, hmutex]
    exact hcount
  · intro u hu
    rcases mem_add.1 hu with hu | hu
    · exact promises_of_not_holds (hborn u hu)
    · have hold := h.promised u (mem_cons_of_mem hu)
      unfold promises
      rw [hcost, hstate]
      exact hold
  · intro hmidway
    unfold Incumbent
    rw [hcost, hstate, hfound]
    apply h.incumbent
    intro u hu
    rcases mem_cons.1 hu with rfl | hu
    · exact not_midway_of_not_holds ht
    · exact hmidway u (mem_add.2 (Or.inr hu))
  · rw [hcost]
    exact h.bounded

/-- A step of the holder that keeps the lock. -/
theorem Locked.hold {u : BnbThread State Cost} (h : Locked p root initialBest s (t ::ₘ others))
    (ht : t.holds = true) (hu : u.holds = true) (hmutex : s'.stateMutex = s.stateMutex)
    (hpromises : u.promises p root initialBest s')
    (hincumbent : u.midway = false → Incumbent p root initialBest s')
    (hbounded : s'.bestCost ≤ initialBest) : Locked p root initialBest s' ({u} + others) := by
  obtain ⟨-, halone⟩ := h.alone ht
  constructor
  · have hcount := h.holders
    rw [count_cons, if_pos ht] at hcount
    rw [count_add, count_singleton, if_pos hu, hmutex, Nat.add_comm]
    exact hcount
  · intro v hv
    rcases mem_add.1 hv with hv | hv
    · rw [mem_singleton.1 hv]
      exact hpromises
    · exact promises_of_not_holds (halone v hv)
  · intro hmidway
    apply hincumbent
    exact hmidway u (mem_add.2 (Or.inl (mem_singleton_self u)))
  · exact hbounded

/-- The incumbent is whole when the thread that holds the lock is not at work on it. -/
theorem Locked.whole (h : Locked p root initialBest s (t ::ₘ others)) (ht : t.holds = true)
    (hmidway : t.midway = false) : Incumbent p root initialBest s := by
  apply h.incumbent
  intro u hu
  rcases mem_cons.1 hu with rfl | hu
  · exact hmidway
  · exact not_midway_of_not_holds ((h.alone ht).2 u hu)

end Lock

theorem Locked.step (h : Locked p root initialBest s (t ::ₘ others)) (ht : t.tested p)
    (hbelow : ∀ n ∈ t.nodes, p.Below root n) (hnext : BnbStep p s t s' born) :
    Locked p root initialBest s' (born + others) := by
  have hpromise := h.promised t (mem_cons_self _ _)
  cases hnext with
  | lock _ n hfree =>
    have hcount := h.holders
    simp only [count_cons, holds, Bool.false_eq_true, if_false, add_zero, hfree] at hcount
    have hnone : ∀ u ∈ others, u.holds = false := by
      intro u hu
      rw [← Bool.not_eq_true]
      exact count_eq_zero.1 hcount u hu
    constructor
    · simp [holds, hcount]
    · intro u hu
      rcases mem_add.1 hu with hu | hu
      · rw [mem_singleton.1 hu]
        trivial
      · exact promises_of_not_holds (hnone u hu)
    · intro _
      apply h.incumbent
      intro u hu
      rcases mem_cons.1 hu with rfl | hu
      · rfl
      · exact not_midway_of_not_holds (hnone u hu)
    · exact h.bounded
  | stillBetter _ n hval =>
    exact h.hold rfl rfl rfl hval (fun _ => h.whole rfl rfl) h.bounded
  | overtaken _ n hval =>
    exact h.hold rfl rfl rfl trivial (fun _ => h.whole rfl rfl) h.bounded
  | store _ n =>
    have hval : p.objective n < initialBest := lt_of_lt_of_le hpromise h.bounded
    have hsolution : p.Solution root n := ⟨hbelow n (mem_singleton_self n), ht⟩
    exact h.hold rfl rfl rfl ⟨rfl, hval, hsolution⟩ (fun hmidway => by cases hmidway) hval.le
  | write _ n =>
    obtain ⟨hcost, hval, hsolution⟩ := hpromise
    exact h.hold rfl rfl rfl ⟨hcost, hval, hsolution, rfl⟩ (fun hmidway => by cases hmidway)
      h.bounded
  | flag _ n =>
    obtain ⟨hcost, hval, hsolution, hstate⟩ := hpromise
    refine h.hold rfl rfl rfl trivial (fun _ => Or.inr ⟨rfl, ?_, ?_, ?_⟩) h.bounded
    · exact hcost ▸ hval
    · exact hstate ▸ hsolution
    · exact hstate ▸ hcost
  | unlock _ n =>
    obtain ⟨-, hnone⟩ := h.alone rfl
    constructor
    · have hcount : count holds others = 0 := by
        rw [count_eq_zero]
        intro u hu
        rw [hnone u hu]
        exact Bool.false_ne_true
      simp [holds, hcount]
    · intro u hu
      rcases mem_add.1 hu with hu | hu
      · rw [mem_singleton.1 hu]
        trivial
      · exact promises_of_not_holds (hnone u hu)
    · intro _
      exact h.whole rfl rfl
    · exact h.bounded
  | _ => exact h.frame rfl (by simp [holds]) rfl rfl rfl rfl

/-- A solution that would improve the incumbent is at or below a node still to be searched. -/
def Covered (p : BnbProblem State Cost) (root : State) (s : BnbContext State Cost)
    (threads : Multiset (BnbThread State Cost)) : Prop :=
  ∀ x, p.Solution root x → p.objective x < s.bestCost →
    ∃ t ∈ threads, ∃ n ∈ t.left, p.Below n x

omit [Inhabited State] [Inhabited Cost] in
theorem Covered.pass (h : Covered p root s (t ::ₘ others)) (hcost : s'.bestCost ≤ s.bestCost)
    (hown : ∀ n ∈ t.left, ∀ x, p.Below n x → p.isSolution x = true →
      p.objective x < s'.bestCost → ∃ u ∈ born, ∃ m ∈ u.left, p.Below m x) :
    Covered p root s' (born + others) := by
  intro x hx hval
  obtain ⟨u, hu, n, hn, hbelow⟩ := h x hx (lt_of_lt_of_le hval hcost)
  rcases mem_cons.1 hu with rfl | hu
  · obtain ⟨v, hv, m, hm, hbelow'⟩ := hown n hn x hbelow hx.2 hval
    exact ⟨v, mem_add.2 (Or.inl hv), m, hm, hbelow'⟩
  · exact ⟨u, mem_add.2 (Or.inr hu), n, hn, hbelow⟩

theorem Covered.step (h : Covered p root s (t ::ₘ others)) (hadmissible : p.Admissible root)
    (ht : t.tested p) (hbelow : ∀ n ∈ t.nodes, p.Below root n)
    (hpromise : t.promises p root initialBest s) (hnext : BnbStep p s t s' born) :
    Covered p root s' (born + others) := by
  cases hnext with
  | prune _ n hbound =>
    refine h.pass le_rfl ?_
    intro m hm x hx hsolution hval
    rw [mem_singleton.1 hm] at hx
    have hle := hadmissible n x (hbelow n (mem_singleton_self n)) hx hsolution
    exact absurd (lt_of_lt_of_le hval (hbound.trans hle)) (lt_irrefl _)
  | worse _ n hn hval =>
    refine h.pass le_rfl ?_
    intro m hm x hx _ hlt
    rw [mem_singleton.1 hm] at hx
    rw [hx.eq_of_solution hn] at hlt
    exact absurd hlt (not_lt_of_ge hval)
  | overtaken _ n hval =>
    refine h.pass le_rfl ?_
    intro m hm x hx _ hlt
    rw [mem_singleton.1 hm] at hx
    rw [hx.eq_of_solution ht] at hlt
    exact absurd hlt (not_lt_of_ge hval)
  | store _ n =>
    refine h.pass (le_of_lt hpromise) ?_
    intro m hm x hx _ hlt
    rw [mem_singleton.1 hm] at hx
    rw [hx.eq_of_solution ht] at hlt
    exact absurd hlt (lt_irrefl _)
  | barren _ n hbranch =>
    refine h.pass le_rfl ?_
    intro m hm x hx hsolution _
    rw [mem_singleton.1 hm] at hx
    obtain ⟨child, hchild⟩ := hx.exists_child ht hsolution
    simp [hbranch] at hchild
  | branch _ n first rest hbranch =>
    refine h.pass le_rfl ?_
    intro m hm x hx hsolution _
    rw [mem_singleton.1 hm] at hx
    obtain ⟨child, hchild, hx'⟩ := hx.exists_child ht hsolution
    refine ⟨_, mem_singleton_self _, child, ?_, hx'⟩
    simpa [left, nodes, hbranch] using hchild
  | submit _ first child rest =>
    refine h.pass le_rfl ?_
    intro m hm x hx _ _
    simp only [left, nodes, mem_cons, mem_coe, List.mem_cons] at hm
    rcases hm with rfl | rfl | hm
    · exact ⟨.submitting m rest, by simp, m, by simp [left, nodes], hx⟩
    · exact ⟨.task m .start, by simp, m, by simp [left, nodes], hx⟩
    · exact ⟨.submitting first rest, by simp, m, by simp [left, nodes, hm], hx⟩
  | launch _ root =>
    refine h.pass le_rfl ?_
    intro m hm x hx _ _
    exact ⟨.task root .start, by simp, m, hm, hx⟩
  | pruned _ n | write _ n | flag _ n | unlock _ n | finish _ n | finishLast _ n | notify _ =>
    refine h.pass le_rfl ?_
    intro m hm
    exact absurd hm (notMem_zero m)
  | _ =>
    refine h.pass le_rfl ?_
    intro m hm x hx _ _
    exact ⟨_, mem_singleton_self _, m, hm, hx⟩

/-- A caller that reads finds no node unfinished and reads what stays. -/
def Settling (s : BnbContext State Cost) (threads : Multiset (BnbThread State Cost)) : Prop :=
  ∀ t ∈ threads, t.reads = true → threads.bind nodes = 0 ∧ t.agrees s

/-- Without nodes nothing changes. -/
theorem BnbStep.of_no_nodes (h : BnbStep p s t s' born) (ht : t.nodes = 0) :
    s' = s ∧ born.bind nodes = 0 := by
  cases h with
  | notify => exact ⟨rfl, zero_bind _⟩
  | wake | readFound | readState | readCost | readExpanded | readPruned =>
    exact ⟨rfl, singleton_bind _ _⟩
  | _ => simp [nodes] at ht

theorem Settling.step (h : Settling s (t ::ₘ others)) (hfits : p.FitsInt root)
    (haccounted : Accounted p root s (t ::ₘ others)) (hnext : BnbStep p s t s' born) :
    Settling s' (born + others) := by
  have hstays : (t ::ₘ others).bind nodes = 0 → s' = s ∧ (born + others).bind nodes = 0 := by
    intro hnone
    have hempty := nodes_eq_zero hnone
    obtain ⟨hsame, hborn⟩ := hnext.of_no_nodes (hempty t (mem_cons_self _ _))
    refine ⟨hsame, ?_⟩
    rw [add_bind, hborn, zero_add]
    apply eq_zero_of_forall_notMem
    intro n hn
    obtain ⟨u, hu, hn⟩ := mem_bind.1 hn
    rw [hempty u (mem_cons_of_mem hu)] at hn
    exact notMem_zero n hn
  intro u hu hreads
  rcases mem_add.1 hu with hu | hu
  · have hnone : (t ::ₘ others).bind nodes = 0 := by
      cases hnext with
      | wake _ hzero => exact haccounted.nodes_eq_zero hfits hzero
      | readFound | readState | readCost | readExpanded | readPruned =>
        exact (h _ (mem_cons_self _ _) rfl).1
      | _ => simp at hu <;> rcases hu with rfl | rfl <;> cases hreads
    refine ⟨(hstays hnone).2, ?_⟩
    cases hnext with
    | wake | readFound =>
      rw [mem_singleton.1 hu]
      simp [agrees]
    | readState | readCost | readExpanded | readPruned =>
      have hagrees := (h _ (mem_cons_self _ _) rfl).2
      rw [mem_singleton.1 hu]
      simpa [agrees] using hagrees
    | _ => simp at hu <;> rcases hu with rfl | rfl <;> cases hreads
  · obtain ⟨hnone, hagrees⟩ := h u (mem_cons_of_mem hu) hreads
    obtain ⟨hsame, hnone'⟩ := hstays hnone
    rw [hsame]
    exact ⟨hnone', hagrees⟩

structure Searching (p : BnbProblem State Cost) (root : State) (initialBest : Cost)
    (s : BnbContext State Cost) (threads : Multiset (BnbThread State Cost)) : Prop where
  tested : ∀ t ∈ threads, t.tested p
  accounted : Accounted p root s threads
  locked : Locked p root initialBest s threads
  covered : Covered p root s threads
  settling : Settling s threads

omit [Inhabited Cost] in
theorem searching_start : Searching p root initialBest (bnbStart root initialBest).shared
    (bnbStart root initialBest).threads := by
  refine ⟨?_, ⟨.root, rfl⟩, ⟨rfl, ?_, fun _ => Or.inl ⟨rfl, rfl⟩, le_rfl⟩, ?_, ?_⟩
  · intro t ht
    rw [mem_singleton.1 ht]
    trivial
  · intro t ht
    rw [mem_singleton.1 ht]
    trivial
  · intro x hx _
    exact ⟨_, mem_singleton_self _, root, mem_singleton_self root, hx.1⟩
  · intro t ht hreads
    rw [mem_singleton.1 ht] at hreads
    cases hreads

theorem Searching.step (h : Searching p root initialBest s (t ::ₘ others))
    (hadmissible : p.Admissible root) (hfits : p.FitsInt root) (hnext : BnbStep p s t s' born) :
    Searching p root initialBest s' (born + others) := by
  have ht := h.tested t (mem_cons_self _ _)
  have hbelow : ∀ n ∈ t.nodes, p.Below root n := by
    intro n hn
    apply h.accounted.frontier.belowRoot
    rw [cons_bind]
    exact mem_add.2 (Or.inl hn)
  refine ⟨?_, h.accounted.step ht hnext, h.locked.step ht hbelow hnext,
    h.covered.step hadmissible ht hbelow (h.locked.promised t (mem_cons_self _ _)) hnext,
    h.settling.step hfits h.accounted hnext⟩
  intro u hu
  rcases mem_add.1 hu with hu | hu
  · exact hnext.tested ht u hu
  · exact h.tested u (mem_cons_of_mem hu)

/-- In every state the counter is the number of unfinished nodes; and when the search returns,
none is left, and the result is the best of what was given and the solutions. -/
theorem bnb_exact (hadmissible : p.Admissible root) (hfits : p.FitsInt root)
    {c : Config (BnbContext State Cost) (BnbThread State Cost)}
    (h : Reachable (BnbStep p) (bnbStart root initialBest) c) :
    c.shared.pendingTasks.toInt = (c.threads.bind nodes).card ∧
      ∀ res, .returned res ∈ c.threads →
        c.threads.bind nodes = 0 ∧
        (res.found = true ↔ ∃ x, p.Solution root x ∧ p.objective x < initialBest) ∧
        IsLeast (insert initialBest {cost | ∃ x, p.Solution root x ∧ p.objective x = cost})
          res.bestCost ∧
        (res.found = true → p.objective res.bestState = res.bestCost) := by
  have hinv : Searching p root initialBest c.shared c.threads :=
    h.invariant searching_start fun _ _ _ _ _ hinv hnext => hinv.step hadmissible hfits hnext
  constructor
  · have hcard := hfits _ hinv.accounted.frontier
    rw [hinv.accounted.pending, BitVec.toInt_ofNat', Int.bmod_eq_of_le] <;> omega
  · intro res hres
    obtain ⟨hnone, hfound, hstate, hcost⟩ := hinv.settling _ hres rfl
    have hempty := nodes_eq_zero hnone
    have hbest : ∀ x, p.Solution root x → c.shared.bestCost ≤ p.objective x := by
      intro x hx
      by_contra hlt
      obtain ⟨t, ht, n, hn, -⟩ := hinv.covered x hx (not_le.1 hlt)
      have hn' := mem_nodes_of_left hn
      rw [hempty t ht] at hn'
      exact notMem_zero n hn'
    have hincumbent : Incumbent p root initialBest c.shared := by
      apply hinv.locked.incumbent
      intro t ht
      have ht' := hempty t ht
      cases t <;> simp [nodes] at ht' <;> rfl
    rw [hfound, hstate, hcost]
    refine ⟨hnone, ?_, ⟨?_, ?_⟩, ?_⟩
    · rcases hincumbent with ⟨hfalse, hinitial⟩ | ⟨htrue, hlt, hsolution, hobjective⟩
      · rw [hfalse]
        refine iff_of_false Bool.false_ne_true ?_
        rintro ⟨x, hx, hlt⟩
        exact absurd hlt (not_lt_of_ge (hinitial ▸ hbest x hx))
      · rw [htrue]
        exact iff_of_true rfl ⟨_, hsolution, hobjective ▸ hlt⟩
    · rcases hincumbent with ⟨-, hinitial⟩ | ⟨-, -, hsolution, hobjective⟩
      · exact Or.inl hinitial
      · exact Or.inr ⟨_, hsolution, hobjective⟩
    · rintro cost (rfl | ⟨x, hx, rfl⟩)
      · exact hinv.locked.bounded
      · exact hbest x hx
    · intro htrue
      rcases hincumbent with ⟨hfalse, -⟩ | ⟨-, -, -, hobjective⟩
      · rw [hfalse] at htrue
        cases htrue
      · exact hobjective

/-- A solution with a better one below it. -/
def nested : BnbProblem Bool Nat :=
  ⟨fun n => if n then [false] else [], fun _ => 0, fun n => if n then 3 else 1, fun _ => true⟩

theorem nested_returned : Reachable (BnbStep nested) (bnbStart true 5)
    ⟨⟨3, false, true, true, 1, 0, 0⟩, {.returned ⟨true, true, 3, 1, 0⟩}⟩ := by
  have hstart : Reachable (BnbStep nested) (bnbStart true 5)
      ⟨⟨5, false, default, false, 0, 0, 1⟩, {.launching true}⟩ := Reachable.refl _
  have hlaunch := hstart.turn 0 rfl (BnbStep.launch _ true)
  have hexpand := hlaunch.turn {.waiting} rfl (BnbStep.expand _ true (by decide))
  have hexpanded := hexpand.turn {.waiting} rfl (BnbStep.expanded _ true)
  have hbetter := hexpanded.turn {.waiting} rfl (BnbStep.better _ true rfl (by decide))
  have hlock := hbetter.turn {.waiting} rfl (BnbStep.lock _ true rfl)
  have hstill := hlock.turn {.waiting} rfl (BnbStep.stillBetter _ true (by decide))
  have hstore := hstill.turn {.waiting} rfl (BnbStep.store _ true)
  have hwrite := hstore.turn {.waiting} rfl (BnbStep.write _ true)
  have hflag := hwrite.turn {.waiting} rfl (BnbStep.flag _ true)
  have hunlock := hflag.turn {.waiting} rfl (BnbStep.unlock _ true)
  have hfinish := hunlock.turn {.waiting} rfl (BnbStep.finishLast _ true rfl)
  have hnotify := hfinish.turn {.waiting} rfl (BnbStep.notify _)
  have hwake := hnotify.turn 0 rfl (BnbStep.wake _ rfl)
  have hfound := hwake.turn 0 rfl (BnbStep.readFound _ _)
  have hstate := hfound.turn 0 rfl (BnbStep.readState _ _)
  have hcost := hstate.turn 0 rfl (BnbStep.readCost _ _)
  have hnodes := hcost.turn 0 rfl (BnbStep.readExpanded _ _)
  exact hnodes.turn 0 rfl (BnbStep.readPruned _ _)

/-- Every child is a solution, and there are `2 ^ 32` of them. -/
def broad : BnbProblem Bool Nat :=
  ⟨fun n => if n then List.replicate (2 ^ 32) false else [], fun _ => 0, fun _ => 1, fun n => !n⟩

theorem broad_branch : ∃ rest, broad.branch true = false :: rest := by
  refine ⟨List.replicate (2 ^ 32 - 1) false, ?_⟩
  rfl

theorem broad_netChange : broad.netChange true = -1 := by
  have hlength : (broad.branch true).length = 2 ^ 32 := List.length_replicate
  rw [BnbProblem.netChange, hlength]
  rfl

/-- The counter is zero with all children to come. -/
theorem broad_returned : ∃ rest, Reachable (BnbStep broad) (bnbStart true 5)
    ⟨⟨5, false, false, false, 1, 0, 0⟩,
      {.returned ⟨false, false, 5, 1, 0⟩, .submitting false rest}⟩ := by
  obtain ⟨rest, hbranch⟩ := broad_branch
  have hstart : Reachable (BnbStep broad) (bnbStart true 5)
      ⟨⟨5, false, default, false, 0, 0, 1⟩, {.launching true}⟩ := Reachable.refl _
  have hlaunch := hstart.turn 0 rfl (BnbStep.launch _ true)
  have hexpand := hlaunch.turn {.waiting} rfl (BnbStep.expand _ true (by decide))
  have hexpanded := hexpand.turn {.waiting} rfl (BnbStep.expanded _ true)
  have hinner := hexpanded.turn {.waiting} rfl (BnbStep.inner _ true rfl)
  have hzero : (1 : BitVec 32) + broad.netChange true = 0 := by
    rw [broad_netChange]
    rfl
  have hsplit : Reachable (BnbStep broad) (bnbStart true 5)
      ⟨⟨5, false, false, false, 1, 0, 0⟩, {.waiting, .submitting false rest}⟩ := by
    rw [← hzero, pair_comm]
    exact hinner.turn {.waiting} rfl (BnbStep.branch _ true false rest hbranch)
  have hwake := hsplit.turn {.submitting false rest} rfl (BnbStep.wake _ rfl)
  have hfound := hwake.turn {.submitting false rest} rfl (BnbStep.readFound _ _)
  have hstate := hfound.turn {.submitting false rest} rfl (BnbStep.readState _ _)
  have hcost := hstate.turn {.submitting false rest} rfl (BnbStep.readCost _ _)
  have hnodes := hcost.turn {.submitting false rest} rfl (BnbStep.readExpanded _ _)
  exact ⟨rest, hnodes.turn {.submitting false rest} rfl (BnbStep.readPruned _ _)⟩

/-- The better solution below a solution is not found; and with `2 ^ 32` children nothing is. -/
theorem bnb_misses_solutions :
    ((∀ n x, nested.bound n ≤ nested.objective x) ∧
      ∃ c res x, Reachable (BnbStep nested) (bnbStart true 5) c ∧ .returned res ∈ c.threads ∧
        x ∈ nested.branch true ∧ nested.isSolution x = true ∧
        nested.objective x < res.bestCost) ∧
    (∀ n x, broad.bound n ≤ broad.objective x) ∧
      ∃ c res x, Reachable (BnbStep broad) (bnbStart true 5) c ∧ .returned res ∈ c.threads ∧
        x ∈ broad.branch true ∧ broad.isSolution x = true ∧ broad.objective x < 5 ∧
        res.found = false := by
  refine ⟨⟨fun _ _ => Nat.zero_le _, ?_⟩, fun _ _ => Nat.zero_le _, ?_⟩
  · refine ⟨_, _, false, nested_returned, mem_singleton_self _, ?_, rfl, ?_⟩ <;> decide
  · obtain ⟨rest, hreachable⟩ := broad_returned
    obtain ⟨children, hbranch⟩ := broad_branch
    refine ⟨_, ⟨false, false, 5, 1, 0⟩, false, hreachable, ?_, ?_, rfl, by decide, rfl⟩
    · simp
    · rw [hbranch]
      exact List.mem_cons_self

theorem nested_admissible : nested.Admissible true := fun _ _ _ _ _ => Nat.zero_le _

theorem nested_fitsInt : nested.FitsInt true := by
  intro nodes hnodes
  have hcard := hnodes.card_le (fun _ => 1) (fun _ => le_rfl) (by decide)
  omega

theorem bnb_exact_nested : ∃ c res, Reachable (BnbStep nested) (bnbStart true 5) c ∧
    .returned res ∈ c.threads ∧ c.threads.bind nodes = 0 ∧
      (res.found = true ↔ ∃ x, nested.Solution true x ∧ nested.objective x < 5) ∧
      IsLeast (insert 5 {cost | ∃ x, nested.Solution true x ∧ nested.objective x = cost})
        res.bestCost ∧
      (res.found = true → nested.objective res.bestState = res.bestCost) :=
  ⟨_, _, nested_returned, mem_singleton_self _,
    (bnb_exact nested_admissible nested_fitsInt nested_returned).2 _
      (mem_singleton_self _)⟩

end JobThreads
