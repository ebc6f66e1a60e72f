import OddBuilder.Library.Interleaving
import OddBuilder.Library.Levels
import OddBuilder.Threads.ParallelFor

/-!
# parallel_bfs

The frontier is searched by the tasks of a `parallel_for`, which returns when
they have all ended. Each call of the visitor, each claim of a vertex, the
entries for a vertex that was claimed and each flush of a batch is a step.
-/

namespace JobThreads

open Interleaving

/-- The largest `std::size_t`. -/
def sizeMax : Nat := 2 ^ 64 - 1

structure BfsResult where
  depth : List Nat
  parent : List Nat
  deriving DecidableEq

/-- The arguments and what the pool says. -/
structure BfsCall where
  adj : List (List Nat)
  startVertex : Nat
  workerCount : Nat
  inWorkerThread : Bool

/-- The buffers of the shards by their numbers, and the calls of the visitor so far. -/
structure BfsState where
  visited : List Bool
  ret : BfsResult
  shards : Nat → List Nat
  visits : List (Nat × Nat)

/-- What one pass of the outer loop works on. -/
structure BfsLevel where
  depth : Nat
  frontier : List Nat

/-- The body of the loop for one index; `rest` are the later indexes of the task. -/
structure BfsJob where
  rest : List Nat
  shard : Nat
  v : Nat
  localBatch : List Nat

inductive BfsTask where
  | worker (indexes : List Nat)
  | claiming (job : BfsJob) (neighbors : List Nat)
  | recording (job : BfsJob) (u : Nat) (neighbors : List Nat)
  | flushing (job : BfsJob) (neighbors : List Nat)

def kBatchSize : Nat := 64

/-- A vertex comes into the batch, which is flushed when it is large enough. -/
def BfsJob.push (job : BfsJob) (u : Nat) (neighbors : List Nat) : BfsTask :=
  let job := { job with localBatch := job.localBatch ++ [u] }
  if kBatchSize ≤ job.localBatch.length then .flushing job neighbors else .claiming job neighbors

namespace BfsCall

variable (call : BfsCall)

def neighbors (u : Nat) : List Nat := call.adj.getD u []

def numShards : Nat := max 1 (call.workerCount * 2)

def tasks (n : Nat) : List (List Nat) := parallelFor call.inWorkerThread call.workerCount n

/-- Nothing found. -/
def initResult : BfsResult :=
  let n := call.adj.length
  ⟨List.replicate n sizeMax, List.replicate n sizeMax⟩

/-- The start vertex at depth zero and visited. -/
def initState : BfsState where
  visited := (List.replicate call.adj.length false).set call.startVertex true
  ret := { call.initResult with depth := call.initResult.depth.set call.startVertex 0 }
  shards := fun _ => []
  visits := []

def nextFrontier (s : BfsState) : List Nat := (List.range call.numShards).flatMap s.shards

end BfsCall

/-- A step of a task; the claim succeeds for the first that tries. -/
inductive BfsTaskStep (call : BfsCall) (level : BfsLevel) : LocalStep BfsState BfsTask where
  | visit (s idx rest) :
      BfsTaskStep call level s (.worker (idx :: rest))
        { s with visits := s.visits ++ [(level.depth, level.frontier.getD idx 0)] }
        {.claiming ⟨rest, idx % call.numShards, level.frontier.getD idx 0, []⟩
          (call.neighbors (level.frontier.getD idx 0))}
  | outside (s job u neighbors) (h : call.adj.length ≤ u) :
      BfsTaskStep call level s (.claiming job (u :: neighbors)) s {.claiming job neighbors}
  | taken (s job u neighbors) (h : u < call.adj.length) (hvisited : s.visited.getD u false = true) :
      BfsTaskStep call level s (.claiming job (u :: neighbors)) s {.claiming job neighbors}
  | claim (s job u neighbors) (h : u < call.adj.length) (hvisited : s.visited.getD u false = false) :
      BfsTaskStep call level s (.claiming job (u :: neighbors))
        { s with visited := s.visited.set u true } {.recording job u neighbors}
  | record (s job u neighbors) :
      BfsTaskStep call level s (.recording job u neighbors)
        { s with
          ret := ⟨s.ret.depth.set u ((level.depth + 1) % 2 ^ 64), s.ret.parent.set u job.v⟩ }
        {job.push u neighbors}
  | flush (s job neighbors) :
      BfsTaskStep call level s (.flushing job neighbors)
        { s with
          shards := Function.update s.shards job.shard (s.shards job.shard ++ job.localBatch) }
        {.claiming { job with localBatch := [] } neighbors}
  | flushRest (s job) (h : job.localBatch ≠ []) :
      BfsTaskStep call level s (.claiming job []) s {.flushing job []}
  | next (s job) (h : job.localBatch = []) :
      BfsTaskStep call level s (.claiming job []) s {.worker job.rest}
  | done (s) : BfsTaskStep call level s (.worker []) s 0

/-- The caller before a pass of its loop, in a `parallel_for`, and at its return with the calls of the
visitor. -/
inductive BfsConfig where
  | loop (level : BfsLevel) (s : BfsState)
  | running (level : BfsLevel) (c : Config BfsState BfsTask)
  | returned (ret : BfsResult) (visits : List (Nat × Nat))

inductive BfsStep (call : BfsCall) : BfsConfig → BfsConfig → Prop where
  | spawn (level s) (h : level.frontier ≠ []) :
      BfsStep call (.loop level s)
        (.running level ⟨{ s with shards := fun _ => [] },
          Multiset.ofList ((call.tasks level.frontier.length).map .worker)⟩)
  | turn (level) {c c'} (h : Step (BfsTaskStep call level) c c') :
      BfsStep call (.running level c) (.running level c')
  | join (level s) :
      BfsStep call (.running level ⟨s, 0⟩)
        (.loop ⟨(level.depth + 1) % 2 ^ 64, call.nextFrontier s⟩ s)
  | finish (level s) (h : level.frontier = []) :
      BfsStep call (.loop level s) (.returned s.ret s.visits)

def bfsStart (call : BfsCall) : BfsConfig :=
  let n := call.adj.length
  if n = 0 ∨ n ≤ call.startVertex then .returned call.initResult []
  else .loop ⟨0, [call.startVertex]⟩ call.initState

namespace BfsCall

variable (call : BfsCall)

/-- A neighbor that is a vertex. -/
def Edge (u v : Nat) : Prop := v ∈ call.neighbors u ∧ v < call.adj.length

/-- Walks from the start vertex by their numbers of edges. -/
abbrev Walk : Nat → Nat → Prop := Levels.Walk call.Edge call.startVertex

structure Exact (ret : BfsResult) (visits : List (Nat × Nat)) : Prop where
  length_depth : ret.depth.length = call.adj.length
  length_parent : ret.parent.length = call.adj.length
  unreachable : ∀ v, v < call.adj.length →
    (ret.depth.getD v 0 = sizeMax ↔ ¬ ∃ k, call.Walk k v)
  shortest : ∀ v, v < call.adj.length → (∃ k, call.Walk k v) →
    IsLeast {k | call.Walk k v} (ret.depth.getD v 0)
  parent : ∀ v, v < call.adj.length → (∃ k, call.Walk k v) → v ≠ call.startVertex →
    call.Edge (ret.parent.getD v 0) v ∧ ret.depth.getD (ret.parent.getD v 0) 0 + 1 = ret.depth.getD v 0
  no_parent : ∀ v, v < call.adj.length → v = call.startVertex ∨ (¬ ∃ k, call.Walk k v) →
    ret.parent.getD v 0 = sizeMax
  once : (visits.map Prod.snd).Nodup
  visited : ∀ k v, (k, v) ∈ visits ↔
    v < call.adj.length ∧ (∃ k, call.Walk k v) ∧ ret.depth.getD v 0 = k

end BfsCall

end JobThreads
