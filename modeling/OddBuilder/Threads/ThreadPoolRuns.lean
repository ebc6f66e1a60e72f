import Mathlib.Algebra.Order.BigOperators.Group.Finset
import OddBuilder.Threads.ThreadPool

/-!
# Runs of the thread pool

Two counts carry the wakeups. Tokens, workers between a token and the end of
their scan, and submissions between push and post are together at least as many
as the tasks in the queues; and the counter of tasks is never behind the tokens
given for them.
-/

namespace JobThreads

open Interleaving JobBoundedMPMCQueue

variable {n : Nat}
variable {p p' : ThreadPool n} {t : PoolThread n} {threads threads' : Multiset (PoolThread n)}
  {cap clients : Nat} {workers : Multiset (Fin n)}

namespace PoolThread

/-- Pushed, and not in the counter yet. -/
def pushed : PoolThread n → ℤ
  | .counting => 1
  | _ => 0

/-- In the counter, and not posted yet. -/
def counted : PoolThread n → ℤ
  | .posting => 1
  | _ => 0

/-- Has taken a token and is not through with the scan or the post after it. -/
def scans : PoolThread n → ℤ
  | .woken _ => 1
  | .scanning _ _ => 1
  | .missed _ => 1
  | .reposting _ => 1
  | _ => 0

/-- Has taken a task that is still in the counter. -/
def took : PoolThread n → ℤ
  | .popped _ _ => 1
  | _ => 0

/-- Is about to start the closure `x`. -/
def runs (x : Nat) : PoolThread n → ℤ
  | .running _ task => if task = x then 1 else 0
  | _ => 0

theorem counted_nonneg (t : PoolThread n) : 0 ≤ t.counted := by
  cases t <;> simp [counted]

theorem scans_nonneg (t : PoolThread n) : 0 ≤ t.scans := by
  cases t <;> simp [scans]

theorem took_nonneg (t : PoolThread n) : 0 ≤ t.took := by
  cases t <;> simp [took]

theorem runs_nonneg (x : Nat) (t : PoolThread n) : 0 ≤ t.runs x := by
  cases t <;> simp only [runs, le_refl]
  split <;> omega

end PoolThread

/-- The number of tasks in the queues. -/
def queued (queue : Fin n → JobBoundedMPMCQueue Nat) : ℤ := ∑ i, ((queue i).deque.length : ℤ)

theorem queued_update (queue : Fin n → JobBoundedMPMCQueue Nat) (i : Fin n)
    (q : JobBoundedMPMCQueue Nat) :
    queued (Function.update queue i q) = queued queue - (queue i).deque.length + q.deque.length := by
  have hupdate : ∀ j, ((Function.update queue i q j).deque.length : ℤ) =
      Function.update (fun j => ((queue j).deque.length : ℤ)) i q.deque.length j := by
    intro j
    by_cases hj : j = i
    · subst hj
      simp
    · simp [hj]
  have hsplit := Finset.sum_erase_add Finset.univ (fun j => ((queue j).deque.length : ℤ))
    (Finset.mem_univ i)
  rw [queued, Finset.sum_congr rfl fun j _ => hupdate j,
    Finset.sum_update_of_mem (Finset.mem_univ i), queued, ← Finset.erase_eq]
  omega

theorem length_le_queued (queue : Fin n → JobBoundedMPMCQueue Nat) (i : Fin n) :
    ((queue i).deque.length : ℤ) ≤ queued queue :=
  Finset.single_le_sum (f := fun j => ((queue j).deque.length : ℤ))
    (fun _ _ => Int.natCast_nonneg _) (Finset.mem_univ i)

theorem opened_update {queue : Fin n → JobBoundedMPMCQueue Nat}
    (h : ∀ i, (queue i).closed = false) (i : Fin n) {q : JobBoundedMPMCQueue Nat}
    (hq : q.closed = false) (j : Fin n) : (Function.update queue i q j).closed = false := by
  by_cases hj : j = i
  · subst hj
    simp [hq]
  · simp [hj, h j]

namespace ThreadPool

section Fields

variable (p : ThreadPool n) (id : Nat) (i : Fin n) (q : JobBoundedMPMCQueue Nat)

@[simp] theorem store_queue : (p.store id).queue = p.queue := rfl

@[simp] theorem store_totalSize : (p.store id).totalSize = p.totalSize := rfl

@[simp] theorem store_workSemaphore : (p.store id).workSemaphore = p.workSemaphore := rfl

@[simp] theorem erase_queue : (p.erase id).queue = p.queue := rfl

@[simp] theorem erase_totalSize : (p.erase id).totalSize = p.totalSize := rfl

@[simp] theorem erase_workSemaphore : (p.erase id).workSemaphore = p.workSemaphore := rfl

@[simp] theorem setQueue_queue : (p.setQueue i q).queue = Function.update p.queue i q := rfl

@[simp] theorem setQueue_totalSize : (p.setQueue i q).totalSize = p.totalSize := rfl

@[simp] theorem setQueue_workSemaphore : (p.setQueue i q).workSemaphore = p.workSemaphore := rfl

end Fields

end ThreadPool

open PoolThread ThreadPool

/-- What the queues, the counter and the semaphore have to do with each other. -/
structure Wakeups (p : ThreadPool n) (threads : Multiset (PoolThread n)) : Prop where
  opened : ∀ i, (p.queue i).closed = false
  size : p.totalSize = queued p.queue + total took threads - total pushed threads
  tokens : p.workSemaphore + total scans threads + total counted threads + total took threads ≤
    p.totalSize
  tasks : queued p.queue ≤ p.workSemaphore + total scans threads + total pushed threads +
    total counted threads

theorem Wakeups.step {born others : Multiset (PoolThread n)} (h : Wakeups p (t ::ₘ others))
    (hnext : PoolStep n p t p' born) : Wakeups p' (born + others) := by
  obtain ⟨hopened, hsize, htokens, htasks⟩ := h
  have hcounted := total_nonneg counted_nonneg others
  have htook := total_nonneg took_nonneg others
  have hscans := total_nonneg scans_nonneg others
  cases hnext with
  | push _ id i q hpush =>
    obtain ⟨-, rfl⟩ := push_of_open (hopened i) hpush
    refine ⟨opened_update hopened i (hopened i), ?_, ?_, ?_⟩ <;>
      simp [pushed, counted, scans, took, queued_update] at hsize htokens htasks ⊢ <;> omega
  | pushClosed _ id i q hpush =>
    exact absurd (push_of_open (hopened i) hpush).1 (by simp)
  | pop _ wid i id q hpop =>
    obtain ⟨hdeque, hclosed, -⟩ := tryPop_some hpop
    refine ⟨opened_update hopened _ (hclosed.trans (hopened _)), ?_, ?_, ?_⟩ <;>
      simp [pushed, counted, scans, took, queued_update, hdeque] at hsize htokens htasks ⊢ <;> omega
  | submit | store | target | count | post | wait | waitAgain | idle | scan | steal | miss | uncount
  | remove | removeNone | run | phantom | sleep | repost =>
    refine ⟨hopened, ?_, ?_, ?_⟩ <;>
      simp [pushed, counted, scans, took] at hsize htokens htasks ⊢ <;> omega

/-- How often the closure `x` was started or is about to be. -/
def starts (p : ThreadPool n) (threads : Multiset (PoolThread n)) (x : Nat) : ℤ :=
  p.executed.count x + total (runs x) threads

theorem assign_taskShards (p : ThreadPool n) (id : Nat) (task : Option Nat)
    (shard : Fin kShardCount) (j : Nat) : (p.assign id task).taskShards shard j =
      if shard = getShard id ∧ j = id then task else p.taskShards shard j := by
  by_cases hshard : shard = getShard id
  · subst hshard
    by_cases hj : j = id <;> simp [assign, hj]
  · simp [assign, hshard]

/-- A closure is in the table under one id and was not started, or it was started once. -/
structure Closures (p : ThreadPool n) (threads : Multiset (PoolThread n)) : Prop where
  stored : ∀ shard id x, p.taskShards shard id = some x →
    x < p.accepted ∧ starts p threads x = 0
  once : ∀ shard id shard' id' x, p.taskShards shard id = some x →
    p.taskShards shard' id' = some x → shard = shard' ∧ id = id'
  started : ∀ x, starts p threads x ≤ 1
  fresh : ∀ x, p.accepted ≤ x → starts p threads x = 0

/-- A step that neither touches the table nor starts a closure. -/
theorem Closures.of_eq (h : Closures p threads) (hshards : p'.taskShards = p.taskShards)
    (haccepted : p'.accepted = p.accepted)
    (hstarts : ∀ x, starts p' threads' x = starts p threads x) : Closures p' threads' := by
  refine ⟨?_, ?_, ?_, ?_⟩
  · intro shard id x hx
    rw [hshards] at hx
    rw [hstarts, haccepted]
    exact h.stored shard id x hx
  · intro shard id shard' id' x hx hx'
    rw [hshards] at hx hx'
    exact h.once shard id shard' id' x hx hx'
  · intro x
    rw [hstarts]
    exact h.started x
  · intro x hx
    rw [haccepted] at hx
    rw [hstarts]
    exact h.fresh x hx

theorem Closures.store (h : Closures p threads) (id : Nat)
    (hstarts : ∀ x, starts (p.store id) threads' x = starts p threads x) :
    Closures (p.store id) threads' := by
  have hshards : ∀ shard j, (p.store id).taskShards shard j =
      if shard = getShard id ∧ j = id then some p.accepted else p.taskShards shard j :=
    assign_taskShards p id (some p.accepted)
  have hold : ∀ shard j, p.taskShards shard j ≠ some p.accepted := by
    intro shard j hx
    exact absurd (h.stored shard j _ hx).1 (Nat.lt_irrefl _)
  refine ⟨?_, ?_, ?_, ?_⟩
  · intro shard j x hx
    rw [hshards] at hx
    rw [hstarts]
    split at hx
    · cases hx
      exact ⟨Nat.lt_succ_self _, h.fresh _ (Nat.le_refl _)⟩
    · obtain ⟨hlt, hzero⟩ := h.stored shard j x hx
      exact ⟨Nat.lt_succ_of_lt hlt, hzero⟩
  · intro shard j shard' j' x hx hx'
    rw [hshards] at hx hx'
    split at hx <;> split at hx'
    · next hat hat' => exact ⟨hat.1.trans hat'.1.symm, hat.2.trans hat'.2.symm⟩
    · cases hx
      exact absurd hx' (hold shard' j')
    · cases hx'
      exact absurd hx (hold shard j)
    · exact h.once shard j shard' j' x hx hx'
  · intro x
    rw [hstarts]
    exact h.started x
  · intro x hx
    rw [hstarts]
    exact h.fresh x (Nat.le_of_succ_le hx)

theorem Closures.erase (h : Closures p threads) {id task : Nat} (hfind : p.find id = some task)
    (hstarts : ∀ x, starts (p.erase id) threads' x = starts p threads x + if task = x then 1 else 0) :
    Closures (p.erase id) threads' := by
  have hshards : ∀ shard j, (p.erase id).taskShards shard j =
      if shard = getShard id ∧ j = id then none else p.taskShards shard j :=
    assign_taskShards p id none
  obtain ⟨hlt⟩ := h.stored _ _ _ hfind
  refine ⟨?_, ?_, ?_, ?_⟩
  · intro shard j x hx
    rw [hshards] at hx
    split at hx
    · cases hx
    · next hat =>
      have hne : task ≠ x := by
        rintro rfl
        exact hat (h.once _ _ _ _ _ hx hfind)
      rw [hstarts, if_neg hne, add_zero]
      exact h.stored shard j x hx
  · intro shard j shard' j' x hx hx'
    rw [hshards] at hx hx'
    split at hx
    · cases hx
    · split at hx'
      · cases hx'
      · exact h.once shard j shard' j' x hx hx'
  · intro x
    rw [hstarts]
    by_cases hx : task = x
    · subst hx
      omega
    · rw [if_neg hx, add_zero]
      exact h.started x
  · intro x hx
    have hne : task ≠ x := by
      rintro rfl
      exact absurd hlt (Nat.not_lt.2 hx)
    rw [hstarts, if_neg hne, add_zero]
    exact h.fresh x hx

theorem Closures.step {born others : Multiset (PoolThread n)} (h : Closures p (t ::ₘ others))
    (hnext : PoolStep n p t p' born) : Closures p' (born + others) := by
  cases hnext with
  | store _ id =>
    refine h.store id ?_
    intro x
    simp [starts, runs, ThreadPool.store, assign]
  | remove _ wid id task hfind =>
    refine h.erase hfind ?_
    intro x
    simp [starts, runs, ThreadPool.erase, assign]
    omega
  | run _ wid task =>
    refine h.of_eq rfl rfl ?_
    intro x
    by_cases hx : task = x <;> simp [starts, runs, hx]
    omega
  | submit | target | push | pushClosed | count | post | wait | waitAgain | idle | scan | pop | steal
  | miss | uncount | removeNone | phantom | sleep | repost =>
    refine h.of_eq rfl rfl ?_
    intro x
    simp [starts, runs, setQueue]

/-- At the start a thread submits or waits for a token. -/
theorem poolStart_threads (ht : t ∈ (poolStart n cap clients workers).threads) :
    t = .client ∨ ∃ wid, t = .waiting wid := by
  rcases Multiset.mem_add.1 ht with ht | ht
  · exact Or.inl (Multiset.eq_of_mem_replicate ht)
  · obtain ⟨wid, -, rfl⟩ := Multiset.mem_map.1 ht
    exact Or.inr ⟨wid, rfl⟩

theorem total_poolStart (weight : PoolThread n → ℤ) (hclient : weight .client = 0)
    (hwaiting : ∀ wid, weight (.waiting wid) = 0) (cap clients : Nat) (workers : Multiset (Fin n)) :
    total weight (poolStart n cap clients workers).threads = 0 := by
  apply total_eq_zero
  intro t ht
  rcases poolStart_threads ht with rfl | ⟨wid, rfl⟩
  · exact hclient
  · exact hwaiting wid

theorem wakeups_start (cap clients : Nat) (workers : Multiset (Fin n)) :
    Wakeups (ThreadPool.create n cap) (poolStart n cap clients workers).threads := by
  have htook := total_poolStart took rfl (fun _ => rfl) cap clients workers
  have hpushed := total_poolStart pushed rfl (fun _ => rfl) cap clients workers
  have hscans := total_poolStart scans rfl (fun _ => rfl) cap clients workers
  have hcounted := total_poolStart counted rfl (fun _ => rfl) cap clients workers
  have hqueued : queued (ThreadPool.create n cap).queue = 0 := by
    simp [queued, ThreadPool.create, JobBoundedMPMCQueue.create]
  refine ⟨fun _ => rfl, ?_, ?_, ?_⟩
  · rw [hqueued, htook, hpushed]
    rfl
  · rw [hscans, hcounted, htook]
    exact Int.le_refl _
  · rw [hqueued, hscans, hpushed, hcounted]
    exact Int.le_refl _

theorem closures_start (cap clients : Nat) (workers : Multiset (Fin n)) :
    Closures (ThreadPool.create n cap) (poolStart n cap clients workers).threads := by
  have hzero : ∀ x, starts (ThreadPool.create n cap)
      (poolStart n cap clients workers).threads x = 0 := by
    intro x
    rw [starts, total_poolStart (runs x) rfl fun _ => rfl]
    rfl
  refine ⟨?_, ?_, ?_, ?_⟩
  · intro shard id x hx
    cases hx
  · intro shard id shard' id' x hx
    cases hx
  · intro x
    rw [hzero]
    decide
  · intro x _
    exact hzero x

theorem wakeups_of_reachable {c : Config (ThreadPool n) (PoolThread n)}
    (h : Reachable (PoolStep n) (poolStart n cap clients workers) c) :
    Wakeups c.shared c.threads :=
  h.invariant (wakeups_start cap clients workers) fun _ _ _ _ _ => Wakeups.step

theorem closures_of_reachable {c : Config (ThreadPool n) (PoolThread n)}
    (h : Reachable (PoolStep n) (poolStart n cap clients workers) c) :
    Closures c.shared c.threads :=
  h.invariant (closures_start cap clients workers) fun _ _ _ _ _ => Closures.step

/-- In every reachable state no closure was started twice, the counter is not negative, and
with a task in some queue there is a token, a worker that scans for a token it took, or a
submission between push and post. -/
theorem pool_neither_strands_nor_repeats {cap clients : Nat} {workers : Multiset (Fin n)}
    {c : Config (ThreadPool n) (PoolThread n)}
    (h : Reachable (PoolStep n) (poolStart n cap clients workers) c) :
    c.shared.executed.Nodup ∧ 0 ≤ c.shared.totalSize ∧
      ((∃ i, (c.shared.queue i).deque ≠ []) → 0 < c.shared.workSemaphore ∨
        (∃ t ∈ c.threads, 0 < t.scans) ∨ ∃ t ∈ c.threads, 0 < t.pushed ∨ 0 < t.counted) := by
  obtain ⟨-, -, htokens, htasks⟩ := wakeups_of_reachable h
  have hclosures := closures_of_reachable h
  have hscans := total_nonneg scans_nonneg c.threads
  have hcounted := total_nonneg counted_nonneg c.threads
  have htook := total_nonneg took_nonneg c.threads
  refine ⟨?_, by omega, ?_⟩
  · rw [List.nodup_iff_count_le_one]
    intro x
    have hstarted := hclosures.started x
    have hruns := total_nonneg (runs_nonneg x) c.threads
    rw [starts] at hstarted
    omega
  · rintro ⟨i, hi⟩
    have hlength := length_le_queued c.shared.queue i
    have hpos : 0 < (c.shared.queue i).deque.length := List.length_pos_iff.2 hi
    by_cases htoken : 0 < c.shared.workSemaphore
    · exact Or.inl htoken
    by_cases hscan : 0 < total scans c.threads
    · exact Or.inr (Or.inl (exists_of_total_pos hscan))
    by_cases hpush : 0 < total pushed c.threads
    · obtain ⟨t, ht, htpos⟩ := exists_of_total_pos hpush
      exact Or.inr (Or.inr ⟨t, ht, Or.inl htpos⟩)
    · have hcount : 0 < total counted c.threads := by omega
      obtain ⟨t, ht, htpos⟩ := exists_of_total_pos hcount
      exact Or.inr (Or.inr ⟨t, ht, Or.inr htpos⟩)

/-- One worker, one submission that has pushed its task and not counted it. -/
theorem pool_after_push : ∃ c, Reachable (PoolStep 1) (poolStart 1 256 1 {0}) c ∧
    (c.shared.queue 0).deque = [1] ∧ c.shared.workSemaphore = 0 ∧ c.shared.executed.Nodup ∧
      0 ≤ c.shared.totalSize ∧ ((∃ i, (c.shared.queue i).deque ≠ []) →
        0 < c.shared.workSemaphore ∨ (∃ t ∈ c.threads, 0 < t.scans) ∨
          ∃ t ∈ c.threads, 0 < t.pushed ∨ 0 < t.counted) := by
  have hstart : Reachable (PoolStep 1) (poolStart 1 256 1 {0})
      ⟨.create 1 256, .client ::ₘ {.waiting 0}⟩ := Reachable.refl _
  have hsubmit := hstart.turn _ rfl (PoolStep.submit _)
  have hstore := hsubmit.turn {.client, .waiting 0} rfl (PoolStep.store _ 1)
  have htarget := hstore.turn {.client, .waiting 0} rfl (PoolStep.target _ 1 0 rfl)
  have hpush := htarget.turn {.client, .waiting 0} rfl (PoolStep.push _ 1 0 _ rfl)
  exact ⟨_, hpush, rfl, rfl, pool_neither_strands_nor_repeats hpush⟩

end JobThreads
