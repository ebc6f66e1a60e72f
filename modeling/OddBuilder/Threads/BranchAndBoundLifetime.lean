import Mathlib.Data.Multiset.OrderedMonoid
import OddBuilder.Threads.BranchAndBoundRuns

/-!
# The context of a search

It lives until the caller returns. To the search come the mutex of the wait and
the timeout: when there is one, a task may find at its start that it is over. A
wait may end without a notification.
-/

namespace JobThreads

open Interleaving Multiset

variable {State Cost : Type}

structure BnbFrame (State Cost : Type) where
  ctx : BnbContext State Cost
  timedOut : Bool := false
  waitMutex : Bool := false

/-- Threads of the search, tasks that have seen the timeout, and what both sides do with the
mutex of the wait. -/
inductive BnbFrameThread (State Cost : Type) where
  | search (t : BnbThread State Cost)
  | expired (node : State)
  | lockToNotify
  | notify
  | unlockNotified
  | lockToWait
  | test
  | sleep
  | unlockAwaited

/-- The wait and the notification take the mutex. -/
def BnbThread.inFrame : BnbThread State Cost → BnbFrameThread State Cost
  | .waiting => .lockToWait
  | .notifying => .lockToNotify
  | t => .search t

section Steps

variable [LinearOrder Cost] [Inhabited State] [Inhabited Cost]

inductive BnbFrameStep (p : BnbProblem State Cost) (deadline : Bool) :
    LocalStep (BnbFrame State Cost) (BnbFrameThread State Cost) where
  | search (s t ctx born) (h : BnbStep p s.ctx t ctx born) :
      BnbFrameStep p deadline s (.search t) { s with ctx := ctx } (born.map BnbThread.inFrame)
  | expire (s n) (h : deadline = true) :
      BnbFrameStep p deadline s (.search (.task n .start)) s {.expired n}
  | timeout (s n) :
      BnbFrameStep p deadline s (.expired n) { s with timedOut := true }
        {.search (.task n .finishing)}
  | lockToNotify (s) (h : s.waitMutex = false) :
      BnbFrameStep p deadline s .lockToNotify { s with waitMutex := true } {.notify}
  | notify (s) : BnbFrameStep p deadline s .notify s {.unlockNotified}
  | unlockNotified (s) :
      BnbFrameStep p deadline s .unlockNotified { s with waitMutex := false } 0
  | lockToWait (s) (h : s.waitMutex = false) :
      BnbFrameStep p deadline s .lockToWait { s with waitMutex := true } {.test}
  | sleep (s) (h : s.ctx.pendingTasks ≠ 0) :
      BnbFrameStep p deadline s .test { s with waitMutex := false } {.sleep}
  | wake (s) : BnbFrameStep p deadline s .sleep s {.lockToWait}
  | leave (s) (h : s.ctx.pendingTasks = 0) :
      BnbFrameStep p deadline s .test s {.unlockAwaited}
  | unlockAwaited (s) :
      BnbFrameStep p deadline s .unlockAwaited { s with waitMutex := false }
        {.search (.reading .found .create)}

end Steps

def bnbFrameStart [Inhabited State] (root : State) (initialBest : Cost) :
    Config (BnbFrame State Cost) (BnbFrameThread State Cost) :=
  ⟨{ ctx := (bnbStart root initialBest).shared }, {.search (.launching root)}⟩

namespace BnbFrameThread

/-- A task between its last decrement and the end of its notification. -/
def closes : BnbFrameThread State Cost → Bool
  | .lockToNotify => true
  | .notify => true
  | .unlockNotified => true
  | _ => false

/-- A task that has not done its last access to the context. -/
def isTask : BnbFrameThread State Cost → Bool
  | .search (.task _ _) => true
  | .search (.submitting _ _) => true
  | .search .notifying => true
  | .expired _ => true
  | t => t.closes

/-- The nodes a thread has in work or will submit. -/
def nodes : BnbFrameThread State Cost → Multiset State
  | .search t => t.nodes
  | .expired n => {n}
  | _ => 0

/-- The caller behind its test. -/
def hasSeen : BnbFrameThread State Cost → Bool
  | .unlockAwaited => true
  | .search (.reading _ _) => true
  | .search (.returned _) => true
  | _ => false

/-- The caller has returned and the context is gone. -/
def hasReturned : BnbFrameThread State Cost → Bool
  | .search (.returned _) => true
  | _ => false

/-- The caller reads zero only while fewer than 2^32 nodes are open, and returns only when no
task is between its last decrement and the end of its notification. -/
def Outlived : Guard (BnbFrame State Cost) (BnbFrameThread State Cost)
  | s, .test, others => s.ctx.pendingTasks = 0 → (others.bind nodes).card < 2 ^ 32
  | _, .search (.reading .nodesPruned _), others => ∀ t ∈ others, t.closes = false
  | _, _, _ => True

theorem nodes_inFrame (t : BnbThread State Cost) : t.inFrame.nodes = t.nodes := by
  cases t <;> rfl

theorem bind_inFrame (threads : Multiset (BnbThread State Cost)) :
    (threads.map BnbThread.inFrame).bind nodes = threads.bind BnbThread.nodes := by
  rw [bind_map]
  exact bind_congr fun t _ => nodes_inFrame t

/-- A task that has no node is at its notification. -/
theorem closes_of_isTask {t : BnbFrameThread State Cost} (h : t.isTask = true)
    (hnodes : t.nodes = 0) (hsearch : t ≠ .search .notifying) : t.closes = true := by
  cases t with
  | search t =>
    cases t with
    | task n pc => exact absurd hnodes (singleton_ne_zero n)
    | submitting first rest => exact absurd hnodes (cons_ne_zero (m := Multiset.ofList rest))
    | notifying => exact absurd rfl hsearch
    | _ => cases h
  | expired n => exact absurd hnodes (singleton_ne_zero n)
  | _ => exact h

end BnbFrameThread

open BnbFrameThread

section Runs

variable [LinearOrder Cost] [Inhabited State] [Inhabited Cost]
variable {p : BnbProblem State Cost} {deadline : Bool} {root : State} {initialBest : Cost}
  {s s' : BnbFrame State Cost} {t : BnbFrameThread State Cost}
  {born others : Multiset (BnbFrameThread State Cost)}

/-- As in the search, a step leaves the nodes, branches one or finishes one. -/
theorem BnbFrameStep.nodes_cases (h : BnbFrameStep p deadline s t s' born) :
    (born.bind nodes = t.nodes ∧ s'.ctx.pendingTasks = s.ctx.pendingTasks) ∨
      ∃ n, t.nodes = {n} ∧
        ((born.bind nodes = Multiset.ofList (p.branch n) ∧
          s'.ctx.pendingTasks = s.ctx.pendingTasks + p.netChange n) ∨
        (born.bind nodes = 0 ∧ s'.ctx.pendingTasks = s.ctx.pendingTasks - 1)) := by
  cases h with
  | search _ t ctx born hsearch =>
    rw [bind_inFrame]
    rcases hsearch.nodes_cases with hsame | ⟨n, rfl, hbranch⟩ | ⟨n, rfl, hfinish⟩
    · exact Or.inl hsame
    · exact Or.inr ⟨n, rfl, Or.inl hbranch⟩
    · exact Or.inr ⟨n, rfl, Or.inr hfinish⟩
  | _ =>
    left
    exact ⟨by simp [nodes, BnbThread.nodes], rfl⟩

structure Kept (s : BnbFrame State Cost) (threads : Multiset (BnbFrameThread State Cost)) :
    Prop where
  pending : s.ctx.pendingTasks = BitVec.ofNat 32 (threads.bind nodes).card
  framed : ∀ t ∈ threads, t ≠ .search .waiting ∧ t ≠ .search .notifying
  seen : (∃ t ∈ threads, t.hasSeen = true) → threads.bind nodes = 0
  alone : (∃ t ∈ threads, t.hasReturned = true) → ∀ t ∈ threads, t.isTask = false

/-- A step from a thread without nodes makes none. -/
theorem BnbFrameStep.no_nodes (h : BnbFrameStep p deadline s t s' born) (ht : t.nodes = 0) :
    born.bind nodes = 0 := by
  rcases h.nodes_cases with ⟨hnodes, -⟩ | ⟨n, hnode, -⟩
  · rw [hnodes, ht]
  · rw [ht] at hnode
    exact absurd hnode.symm (singleton_ne_zero n)

/-- Behind the test is who has passed it. -/
theorem BnbFrameStep.seen_cases (h : BnbFrameStep p deadline s t s' born)
    (hframed : t ≠ .search .waiting) (hseen : ∃ u ∈ born, u.hasSeen = true) :
    t.hasSeen = true ∨
      t = .test ∧ s.ctx.pendingTasks = 0 ∧ born = {.unlockAwaited} := by
  cases h with
  | search _ t ctx born hsearch =>
    left
    by_contra ht
    have hnone : ∀ u ∈ born, u.inFrame.hasSeen = false := by
      cases hsearch with
      | wake => exact absurd rfl hframed
      | readFound | readState | readCost | readExpanded | readPruned => exact absurd rfl ht
      | _ => simp [BnbThread.inFrame, hasSeen]
    obtain ⟨u, hu, hseen⟩ := hseen
    obtain ⟨v, hv, rfl⟩ := mem_map.1 hu
    rw [hnone v hv] at hseen
    cases hseen
  | leave _ hzero => exact Or.inr ⟨rfl, hzero, rfl⟩
  | unlockAwaited => exact Or.inl rfl
  | _ => simp [hasSeen] at hseen

/-- Only the last read returns. -/
theorem BnbFrameStep.returned_cases (h : BnbFrameStep p deadline s t s' born)
    (hreturned : ∃ u ∈ born, u.hasReturned = true) :
    (∃ res, t = .search (.reading .nodesPruned res)) ∧ ∃ res, born = {.search (.returned res)} := by
  cases h with
  | search _ t ctx born hsearch =>
    obtain ⟨u, hu, hreturned⟩ := hreturned
    obtain ⟨v, hv, rfl⟩ := mem_map.1 hu
    cases hsearch with
    | readPruned res => exact ⟨⟨_, rfl⟩, _, rfl⟩
    | launch | submit =>
      rcases mem_cons.1 hv with rfl | hv
      · cases hreturned
      · rw [mem_singleton.1 hv] at hreturned
        cases hreturned
    | finish | notify => exact absurd hv (notMem_zero _)
    | _ =>
      rw [mem_singleton.1 hv] at hreturned
      cases hreturned
  | _ => simp [hasReturned] at hreturned

/-- Without nodes only a task that closes leaves one. -/
theorem BnbFrameStep.no_tasks (h : BnbFrameStep p deadline s t s' born) (ht : t.isTask = false)
    (hnodes : t.nodes = 0) : ∀ u ∈ born, u.isTask = false := by
  cases h with
  | search _ t ctx born hsearch =>
    cases hsearch with
    | launch => exact absurd hnodes (singleton_ne_zero _)
    | wake | readFound | readState | readCost | readExpanded | readPruned =>
      simp [BnbThread.inFrame, isTask, closes]
    | _ => cases ht
  | expire | timeout | lockToNotify | notify | unlockNotified => cases ht
  | _ => simp [isTask, closes]

theorem BnbFrameStep.framed (h : BnbFrameStep p deadline s t s' born) :
    ∀ u ∈ born, u ≠ .search .waiting ∧ u ≠ .search .notifying := by
  intro u hu
  cases h with
  | search _ t ctx born hsearch =>
    obtain ⟨v, hv, rfl⟩ := mem_map.1 hu
    cases v <;> exact ⟨nofun, nofun⟩
  | _ => simp_all

theorem Kept.pending_step (h : Kept s (t ::ₘ others)) (hnext : BnbFrameStep p deadline s t s' born) :
    s'.ctx.pendingTasks = BitVec.ofNat 32 ((born + others).bind nodes).card := by
  have hpending := h.pending
  rw [cons_bind] at hpending
  rw [add_bind]
  rcases hnext.nodes_cases with ⟨hnodes, hsame⟩ | ⟨n, hnode, ⟨hnodes, hnet⟩ | ⟨hnodes, hdec⟩⟩
  · rw [hnodes, hsame]
    exact hpending
  · rw [hnodes, hnet, hpending, hnode]
    simp only [BnbProblem.netChange, card_add, card_singleton, coe_card]
    bv_omega
  · rw [hnodes, hdec, hpending, hnode]
    simp only [card_add, card_singleton, card_zero]
    bv_omega

theorem Kept.step (h : Kept s (t ::ₘ others)) (hguard : Outlived s t others)
    (hnext : BnbFrameStep p deadline s t s' born) : Kept s' (born + others) := by
  have hframed := h.framed t (mem_cons_self _ _)
  -- Who has seen zero leaves no node.
  have hnone : (∃ u ∈ t ::ₘ others, u.hasSeen = true) →
      t.nodes = 0 ∧ others.bind nodes = 0 := by
    intro hseen
    have hall := h.seen hseen
    rw [cons_bind] at hall
    exact add_eq_zero.1 hall
  have hpast : t.hasSeen = true → others.bind nodes = 0 := fun ht =>
    (hnone ⟨t, mem_cons_self _ _, ht⟩).2
  constructor
  · exact h.pending_step hnext
  · intro u hu
    rcases mem_add.1 hu with hu | hu
    · exact hnext.framed u hu
    · exact h.framed u (mem_cons_of_mem hu)
  · rintro ⟨u, hu, hseen⟩
    rw [add_bind]
    rcases mem_add.1 hu with hu | hu
    · rcases hnext.seen_cases hframed.1 ⟨u, hu, hseen⟩ with ht | ⟨rfl, hzero, rfl⟩
      · obtain ⟨hown, hothers⟩ := hnone ⟨t, mem_cons_self _ _, ht⟩
        rw [hnext.no_nodes hown, hothers, add_zero]
      · have hpending := h.pending
        rw [hzero, cons_bind] at hpending
        have hmod := congrArg BitVec.toNat hpending
        have hcard : (others.bind nodes).card < 2 ^ 32 := hguard hzero
        simp only [nodes, zero_add, BitVec.toNat_ofNat] at hmod
        rw [Nat.mod_eq_of_lt hcard] at hmod
        rw [card_eq_zero.1 hmod.symm]
        rfl
    · obtain ⟨hown, hothers⟩ := hnone ⟨u, mem_cons_of_mem hu, hseen⟩
      rw [hnext.no_nodes hown, hothers, add_zero]
  · rintro ⟨u, hu, hreturned⟩ v hv
    rcases mem_add.1 hu with hu | hu
    · obtain ⟨⟨res, rfl⟩, _, rfl⟩ := hnext.returned_cases ⟨u, hu, hreturned⟩
      rcases mem_add.1 hv with hv | hv
      · rw [mem_singleton.1 hv]
        rfl
      · by_contra htask
        rw [Bool.not_eq_false] at htask
        have hnodes : v.nodes = 0 := by
          refine eq_zero_of_forall_notMem fun n hn => notMem_zero n ?_
          rw [← hpast rfl]
          exact mem_bind.2 ⟨v, hv, hn⟩
        have hcloses := closes_of_isTask htask hnodes (h.framed v (mem_cons_of_mem hv)).2
        rw [hguard v hv] at hcloses
        cases hcloses
    · have hmem := mem_cons_of_mem (a := u) (b := t) hu
      have htasks := h.alone ⟨u, hmem, hreturned⟩
      have hseen : u.hasSeen = true := by
        unfold hasReturned at hreturned
        split at hreturned
        · rfl
        · cases hreturned
      rcases mem_add.1 hv with hv | hv
      · exact hnext.no_tasks (htasks t (mem_cons_self _ _)) (hnone ⟨u, hmem, hseen⟩).1 v hv
      · exact htasks v (mem_cons_of_mem hv)

omit [LinearOrder Cost] [Inhabited Cost] in
theorem kept_start (root : State) (initialBest : Cost) :
    Kept (bnbFrameStart root initialBest).shared (bnbFrameStart root initialBest).threads where
  pending := rfl
  framed := fun t ht => by
    rw [mem_singleton.1 ht]
    exact ⟨nofun, nofun⟩
  seen := by
    rintro ⟨t, ht, hseen⟩
    rw [mem_singleton.1 ht] at hseen
    cases hseen
  alone := by
    rintro ⟨t, ht, hreturned⟩
    rw [mem_singleton.1 ht] at hreturned
    cases hreturned

/-- Once the caller has returned, no task has anything left to do on the context. -/
theorem context_outlives_tasks {p : BnbProblem State Cost} {deadline : Bool} {root : State}
    {initialBest : Cost} {c : Config (BnbFrame State Cost) (BnbFrameThread State Cost)}
    (h : ReachableWhere Outlived (BnbFrameStep p deadline) (bnbFrameStart root initialBest) c)
    (hreturned : ∃ t ∈ c.threads, t.hasReturned = true) : ∀ t ∈ c.threads, t.isTask = false := by
  have hkept : Kept c.shared c.threads :=
    h.invariant (kept_start root initialBest) fun _ _ _ _ _ hkept => hkept.step
  exact hkept.alone hreturned

end Runs

/-- The root is pruned at once. -/
def hopeless : BnbProblem Unit Nat where
  branch _ := []
  bound _ := 5
  objective _ := 5
  isSolution _ := false

/-- The only task has done its decrement, and the caller begins to wait. -/
theorem hopeless_finished {guard : Guard (BnbFrame Unit Nat) (BnbFrameThread Unit Nat)}
    (hguard : ∀ s t others, t.hasSeen = false → t ≠ .test → guard s t others) :
    ReachableWhere guard (BnbFrameStep hopeless false) (bnbFrameStart () 5)
      ⟨⟨⟨5, false, (), false, 0, 1, 0⟩, false, false⟩, {.lockToNotify, .lockToWait}⟩ := by
  have hstart : ReachableWhere guard (BnbFrameStep hopeless false) (bnbFrameStart () 5)
      ⟨⟨⟨5, false, (), false, 0, 0, 1⟩, false, false⟩, {.search (.launching ())}⟩ :=
    Relation.ReflTransGen.refl
  have hlaunch := hstart.turn 0 rfl (hguard _ _ _ rfl nofun) (.search _ _ _ _ (.launch _ ()))
  have hprune := hlaunch.turn {.lockToWait} rfl (hguard _ _ _ rfl nofun)
    (.search _ _ _ _ (.prune _ () le_rfl))
  have hpruned := hprune.turn {.lockToWait} rfl (hguard _ _ _ rfl nofun)
    (.search _ _ _ _ (.pruned _ ()))
  exact hpruned.turn {.lockToWait} rfl (hguard _ _ _ rfl nofun)
    (.search _ _ _ _ (.finishLast _ () rfl))

/-- The caller ends its call beside other threads. -/
theorem hopeless_returned {guard : Guard (BnbFrame Unit Nat) (BnbFrameThread Unit Nat)}
    {others : Multiset (BnbFrameThread Unit Nat)} (hguard : ∀ s t, guard s t others)
    (h : ReachableWhere guard (BnbFrameStep hopeless false) (bnbFrameStart () 5)
      ⟨⟨⟨5, false, (), false, 0, 1, 0⟩, false, false⟩, .lockToWait ::ₘ others⟩) :
    ReachableWhere guard (BnbFrameStep hopeless false) (bnbFrameStart () 5)
      ⟨⟨⟨5, false, (), false, 0, 1, 0⟩, false, false⟩,
        .search (.returned ⟨false, (), 5, 0, 1⟩) ::ₘ others⟩ := by
  have hlock := h.turn others rfl (hguard _ _) (.lockToWait _ rfl)
  have hleave := hlock.turn others rfl (hguard _ _) (.leave _ rfl)
  have hunlock := hleave.turn others rfl (hguard _ _) (.unlockAwaited _)
  have hfound := hunlock.turn others rfl (hguard _ _) (.search _ _ _ _ (.readFound _ _))
  have hstate := hfound.turn others rfl (hguard _ _) (.search _ _ _ _ (.readState _ _))
  have hcost := hstate.turn others rfl (hguard _ _) (.search _ _ _ _ (.readCost _ _))
  have hexpanded := hcost.turn others rfl (hguard _ _) (.search _ _ _ _ (.readExpanded _ _))
  exact hexpanded.turn others rfl (hguard _ _) (.search _ _ _ _ (.readPruned _ _))

/-- The caller takes the mutex first, sees zero and returns: then the task locks a mutex that is
gone. -/
theorem context_gone : ∃ c, Reachable (BnbFrameStep hopeless false) (bnbFrameStart () 5) c ∧
    c.threads = {.search (.returned ⟨false, (), 5, 0, 1⟩), .lockToNotify} ∧
    BnbFrameStep hopeless false c.shared .lockToNotify { c.shared with waitMutex := true }
      {.notify} := by
  have hfinished : Reachable (BnbFrameStep hopeless false) (bnbFrameStart () 5)
      ⟨⟨⟨5, false, (), false, 0, 1, 0⟩, false, false⟩, {.lockToNotify, .lockToWait}⟩ :=
    hopeless_finished fun _ _ _ _ _ => trivial
  rw [pair_comm] at hfinished
  exact ⟨_, hopeless_returned (fun _ _ => trivial) hfinished, rfl, .lockToNotify _ rfl⟩

/-- The task ends its notification first. -/
theorem context_outlives_hopeless : ∃ c, ReachableWhere Outlived (BnbFrameStep hopeless false)
    (bnbFrameStart () 5) c ∧ (∃ t ∈ c.threads, t.hasReturned = true) ∧
      ∀ t ∈ c.threads, t.isTask = false := by
  have hguard : ∀ (s : BnbFrame Unit Nat) t others, t.hasSeen = false → t ≠ .test →
      Outlived s t others := by
    intro s t others hseen htest
    unfold Outlived
    split
    · exact absurd rfl htest
    · cases hseen
    · trivial
  have halone : ∀ (s : BnbFrame Unit Nat) t, Outlived s t 0 := by
    intro s t
    unfold Outlived
    split
    · exact fun _ => by simp
    · exact fun t ht => absurd ht (notMem_zero t)
    · trivial
  have hfinished := hopeless_finished hguard
  have hlock := hfinished.turn {.lockToWait} rfl (hguard _ _ _ rfl nofun) (.lockToNotify _ rfl)
  have hnotify := hlock.turn {.lockToWait} rfl (hguard _ _ _ rfl nofun) (.notify _)
  have hunlock := hnotify.turn {.lockToWait} rfl (hguard _ _ _ rfl nofun) (.unlockNotified _)
  have hreturned := hopeless_returned halone hunlock
  have hmem : ∃ t ∈ (.search (.returned ⟨false, (), 5, 0, 1⟩) ::ₘ 0 : Multiset
      (BnbFrameThread Unit Nat)), t.hasReturned = true := ⟨_, mem_cons_self _ _, rfl⟩
  exact ⟨_, hreturned, hmem, context_outlives_tasks hreturned hmem⟩

end JobThreads
