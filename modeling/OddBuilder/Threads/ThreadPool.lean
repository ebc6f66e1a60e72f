import Mathlib.Algebra.BigOperators.Group.Finset.Piecewise
import Mathlib.Data.Fintype.BigOperators
import OddBuilder.Library.Interleaving
import OddBuilder.Threads.SchedPolicy

/-!
# The thread pool over the work stealing scheduler

Submitting threads and workers before a shutdown. Every access to a queue, a
counter, the semaphore or a shard of the task table is one step. The semaphore
is a count of tokens. A closure is named by the number of closures stored before
it; `accepted` and `executed` record what was stored and what was started and no
step reads them.
-/

namespace JobThreads

open Interleaving

def kShardCount : Nat := 64

/-- The pool with its scheduler. `totalSize` is an integer, so that a decrement below zero
would show. -/
structure ThreadPool (n : Nat) where
  nextTaskId : Nat
  taskShards : Fin kShardCount → Nat → Option Nat
  queue : Fin n → JobBoundedMPMCQueue Nat
  totalSize : Int
  submitCounter : Nat
  workSemaphore : Nat
  accepted : Nat
  executed : List Nat

/-- Where a thread is in `submit` or in `workerLoop`. -/
inductive PoolThread (n : Nat) where
  | client
  | storing (id : Nat)
  | enqueuing (id : Nat)
  | pushing (id : Nat) (target : Fin n)
  | counting
  | posting
  | waiting (wid : Fin n)
  | woken (wid : Fin n)
  | scanning (wid : Fin n) (i : Nat)
  | popped (wid : Fin n) (id : Nat)
  | removing (wid : Fin n) (id : Nat)
  | running (wid : Fin n) (task : Nat)
  | missed (wid : Fin n)
  | reposting (wid : Fin n)

namespace ThreadPool

variable {n : Nat}

def create (n cap : Nat) : ThreadPool n where
  nextTaskId := 1
  taskShards := fun _ _ => none
  queue := fun _ => .create cap
  totalSize := 0
  submitCounter := 0
  workSemaphore := 0
  accepted := 0
  executed := []

def getShard (taskId : Nat) : Fin kShardCount := ⟨taskId % kShardCount, Nat.mod_lt _ (by decide)⟩

/-- What the task table has for an id. -/
def find (p : ThreadPool n) (id : Nat) : Option Nat := p.taskShards (getShard id) id

def assign (p : ThreadPool n) (id : Nat) (task : Option Nat) : ThreadPool n :=
  let shard := getShard id
  { p with
    taskShards := Function.update p.taskShards shard
      (Function.update (p.taskShards shard) id task) }

/-- `shard.map[id] = closure`, with a new number for the closure. -/
def store (p : ThreadPool n) (id : Nat) : ThreadPool n :=
  { p.assign id (some p.accepted) with accepted := p.accepted + 1 }

def erase (p : ThreadPool n) (id : Nat) : ThreadPool n := p.assign id none

def setQueue (p : ThreadPool n) (i : Fin n) (q : JobBoundedMPMCQueue Nat) : ThreadPool n :=
  { p with queue := Function.update p.queue i q }

/-- The queue that is the `i`-th in the scan of a worker, its own first. -/
def scanned (wid : Fin n) (i : Nat) : Fin n :=
  ⟨(wid + i) % n, Nat.mod_lt _ (Nat.lt_of_le_of_lt (Nat.zero_le _) wid.isLt)⟩

end ThreadPool

open ThreadPool in
/-- The atomic steps of `submit` and of `workerLoop`. -/
inductive PoolStep (n : Nat) : LocalStep (ThreadPool n) (PoolThread n) where
  | submit (p) :
      PoolStep n p .client { p with nextTaskId := (p.nextTaskId + 1) % 2 ^ 64 }
        {.storing p.nextTaskId, .client}
  | store (p id) : PoolStep n p (.storing id) (p.store id) {.enqueuing id}
  | target (p id) (i : Fin n) (h : i.val = p.submitCounter % n) :
      PoolStep n p (.enqueuing id) { p with submitCounter := (p.submitCounter + 1) % 2 ^ 64 }
        {.pushing id i}
  | push (p id i q) (h : (p.queue i).push id = some (true, q)) :
      PoolStep n p (.pushing id i) (p.setQueue i q) {.counting}
  | pushClosed (p id i q) (h : (p.queue i).push id = some (false, q)) :
      PoolStep n p (.pushing id i) (p.setQueue i q) {.posting}
  | count (p) : PoolStep n p .counting { p with totalSize := p.totalSize + 1 } {.posting}
  | post (p) : PoolStep n p .posting { p with workSemaphore := p.workSemaphore + 1 } 0
  | wait (p wid) (h : 0 < p.workSemaphore) :
      PoolStep n p (.waiting wid) { p with workSemaphore := p.workSemaphore - 1 } {.woken wid}
  | waitAgain (p wid) : PoolStep n p (.waiting wid) p {.waiting wid}
  | idle (p wid) (h : p.totalSize = 0) : PoolStep n p (.woken wid) p {.missed wid}
  | scan (p wid) (h : p.totalSize ≠ 0) : PoolStep n p (.woken wid) p {.scanning wid 0}
  | pop (p wid i id q) (h : (p.queue (scanned wid i)).tryPop = (some id, q)) :
      PoolStep n p (.scanning wid i) (p.setQueue (scanned wid i) q) {.popped wid id}
  | steal (p wid i q) (h : (p.queue (scanned wid i)).tryPop = (none, q)) (hi : i + 1 < n) :
      PoolStep n p (.scanning wid i) p {.scanning wid (i + 1)}
  | miss (p wid i q) (h : (p.queue (scanned wid i)).tryPop = (none, q)) (hi : ¬ i + 1 < n) :
      PoolStep n p (.scanning wid i) p {.missed wid}
  | uncount (p wid id) :
      PoolStep n p (.popped wid id) { p with totalSize := p.totalSize - 1 } {.removing wid id}
  | remove (p wid id task) (h : p.find id = some task) :
      PoolStep n p (.removing wid id) (p.erase id) {.running wid task}
  | removeNone (p wid id) (h : p.find id = none) :
      PoolStep n p (.removing wid id) p {.waiting wid}
  | run (p wid task) :
      PoolStep n p (.running wid task) { p with executed := task :: p.executed } {.waiting wid}
  | phantom (p wid) (h : 0 < p.totalSize) : PoolStep n p (.missed wid) p {.reposting wid}
  | sleep (p wid) (h : ¬ 0 < p.totalSize) : PoolStep n p (.missed wid) p {.waiting wid}
  | repost (p wid) :
      PoolStep n p (.reposting wid) { p with workSemaphore := p.workSemaphore + 1 } {.waiting wid}

/-- A new pool with its started workers and the threads that will submit. -/
def poolStart (n cap clients : Nat) (workers : Multiset (Fin n)) :
    Config (ThreadPool n) (PoolThread n) :=
  ⟨.create n cap, Multiset.replicate clients .client + workers.map .waiting⟩

end JobThreads

/-!
## The task table

The pool over any scheduler, with ids from its own counter and ids that callers
chose. A closure is named by the `submit` that stored it. Pools are not shut
down, and they have fewer workers than an `int` can count. `returned`, `ran` and
`finished` record which calls of `submit` returned with a future, which closure
was started for the descriptor of which call, and which closures have ended; no
step reads them but the call of `waitForIdle`, that keeps what has returned
before it.
-/

namespace JobThreads

open Interleaving

variable {σ α β : Type}

structure TaskPool (σ : Type) where
  nextTaskId : Nat
  taskShards : Fin kShardCount → Nat → Option Nat
  workSemaphore : Nat
  progress : Int
  scheduler : σ
  submits : Nat
  returned : List Nat
  ran : List (Nat × Nat)
  finished : List Nat

/-- Where a thread is in `submit`, in `workerLoop` or in `waitForIdle`. -/
inductive TaskThread (α β : Type) where
  | client
  | admitting (d : Descriptor)
  | storing (d : Descriptor)
  | enqueuing (d : Descriptor) (x : α)
  | posting (d : Descriptor)
  | waiting (wid : Nat)
  | taking (wid : Nat) (y : β)
  | removing (wid : Nat) (d : Descriptor)
  | counting (wid : Nat) (d : Descriptor) (task : Nat)
  | starting (wid : Nat) (d : Descriptor) (task : Nat)
  | executing (wid : Nat) (d : Descriptor) (task : Nat)
  | uncounting (wid : Nat) (d : Descriptor)
  | completing (wid : Nat) (d : Descriptor)
  | missed (wid : Nat)
  | reposting (wid : Nat)
  | caller
  | sizing (before : List Nat)
  | reading (before : List Nat)
  | sleeping (before : List Nat)
  | idle (before : List Nat)
  deriving DecidableEq

namespace TaskPool

def create (P : SchedPolicy σ α β) : TaskPool σ where
  nextTaskId := 1
  taskShards := fun _ _ => none
  workSemaphore := 0
  progress := 0
  scheduler := P.create
  submits := 0
  returned := []
  ran := []
  finished := []

/-- What the shard of an id has for it. -/
def find (p : TaskPool σ) (id : Nat) : Option Nat := p.taskShards (ThreadPool.getShard id) id

def assign (p : TaskPool σ) (id : Nat) (task : Option Nat) : TaskPool σ :=
  let shard := ThreadPool.getShard id
  { p with
    taskShards := Function.update p.taskShards shard
      (Function.update (p.taskShards shard) id task) }

end TaskPool

open TaskPool TaskThread in
/-- The atomic steps. `submit` takes an id from the counter or a descriptor with any id. -/
inductive TaskStep (P : SchedPolicy σ α β) : LocalStep (TaskPool σ) (TaskThread α β) where
  | issue (p) : TaskStep P p .client
      { p with nextTaskId := (p.nextTaskId + 1) % 2 ^ 64, submits := p.submits + 1 }
      {.admitting ⟨p.nextTaskId, p.submits⟩, .client}
  | bring (p id) : TaskStep P p .client { p with submits := p.submits + 1 }
      {.admitting ⟨id, p.submits⟩, .client}
  | admits (p d s) (h : P.admits p.scheduler d true s) :
      TaskStep P p (.admitting d) { p with scheduler := s } {.storing d}
  | reject (p d s) (h : P.admits p.scheduler d false s) :
      TaskStep P p (.admitting d) { p with scheduler := s } 0
  | store (p d) : TaskStep P p (.storing d) (p.assign d.id (some d.call))
      {.enqueuing d (P.enqueue d)}
  | enqueue (p d x s x') (h : P.enqueueStep p.scheduler x s x') :
      TaskStep P p (.enqueuing d x) { p with scheduler := s } {.enqueuing d x'}
  | enqueued (p d x) (h : P.enqueued x = true) : TaskStep P p (.enqueuing d x) p {.posting d}
  | post (p d) : TaskStep P p (.posting d)
      { p with workSemaphore := p.workSemaphore + 1, returned := d.call :: p.returned } 0
  | wait (p wid) (h : 0 < p.workSemaphore) :
      TaskStep P p (.waiting wid) { p with workSemaphore := p.workSemaphore - 1 }
        {.taking wid (P.next wid)}
  | waitAgain (p wid) : TaskStep P p (.waiting wid) p {.waiting wid}
  | take (p wid y s y') (h : P.nextStep p.scheduler y s y') :
      TaskStep P p (.taking wid y) { p with scheduler := s } {.taking wid y'}
  | took (p wid y d) (h : P.nextResult y = some (some d)) :
      TaskStep P p (.taking wid y) p {.removing wid d}
  | tookNone (p wid y) (h : P.nextResult y = some none) :
      TaskStep P p (.taking wid y) p {.missed wid}
  | phantom (p wid) (h : 0 < P.size p.scheduler) : TaskStep P p (.missed wid) p {.reposting wid}
  | again (p wid) (h : ¬ 0 < P.size p.scheduler) : TaskStep P p (.missed wid) p {.waiting wid}
  | repost (p wid) : TaskStep P p (.reposting wid)
      { p with workSemaphore := p.workSemaphore + 1 } {.waiting wid}
  | remove (p wid d task) (h : p.find d.id = some task) :
      TaskStep P p (.removing wid d) (p.assign d.id none) {.counting wid d task}
  | removeNone (p wid d) (h : p.find d.id = none) :
      TaskStep P p (.removing wid d) p {.waiting wid}
  | count (p wid d task) : TaskStep P p (.counting wid d task) { p with progress := p.progress + 1 }
      {.starting wid d task}
  | start (p wid d task) : TaskStep P p (.starting wid d task)
      { p with ran := (d.call, task) :: p.ran } {.executing wid d task}
  | finish (p wid d task) : TaskStep P p (.executing wid d task)
      { p with finished := task :: p.finished } {.uncounting wid d}
  | uncount (p wid d) : TaskStep P p (.uncounting wid d) { p with progress := p.progress - 1 }
      {.completing wid d}
  | complete (p wid d s) (h : P.complete p.scheduler d.id s) :
      TaskStep P p (.completing wid d) { p with scheduler := s } {.waiting wid}
  | waitForIdle (p) : TaskStep P p .caller p {.sizing p.returned, .caller}
  | size (p before) (h : P.size p.scheduler = 0) :
      TaskStep P p (.sizing before) p {.reading before}
  | sizeAgain (p before) (h : P.size p.scheduler ≠ 0) :
      TaskStep P p (.sizing before) p {.sleeping before}
  | progress (p before) (h : p.progress = 0) : TaskStep P p (.reading before) p {.idle before}
  | progressAgain (p before) (h : p.progress ≠ 0) :
      TaskStep P p (.reading before) p {.sleeping before}
  | sleep (p before) : TaskStep P p (.sleeping before) p {.sizing before}

/-- A new pool with its workers, threads that will submit and threads that will wait. -/
def taskStart (P : SchedPolicy σ α β) (workers clients callers : Nat) :
    Config (TaskPool σ) (TaskThread α β) :=
  ⟨.create P, (Multiset.range workers).map .waiting + Multiset.replicate clients .client +
    Multiset.replicate callers .caller⟩

namespace TaskPool

@[simp] theorem find_assign (p : TaskPool σ) (id : Nat) (task : Option Nat) :
    (p.assign id task).find id = task := by
  simp [find, assign]

theorem find_assign_of_ne (p : TaskPool σ) {id other : Nat} (task : Option Nat)
    (h : other ≠ id) : (p.assign id task).find other = p.find other := by
  by_cases hshard : ThreadPool.getShard other = ThreadPool.getShard id
  · simp [find, assign, hshard, Function.update_of_ne h]
  · simp [find, assign, Function.update_of_ne hshard]

end TaskPool

end JobThreads
