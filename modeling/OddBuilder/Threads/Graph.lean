import Mathlib.Data.Multiset.MapFold
import OddBuilder.Library.CycleSearch
import OddBuilder.Library.Interleaving

/-!
# JobThreadGraph

The nodes stay while runs are under way. A section under the mutex, an access to
the failure flag, to a counter or to a promise is one step; the pool takes
submitted closures in any order. The calls of `run` follow each other, the next
one when the future of the one before is ready.
-/

namespace JobThreads

open Interleaving

variable {Name : Type}

/-- `task` is whether there is a function to call. -/
structure JobThreadNode (Name : Type) where
  name : Name
  task : Bool
  depsList : List Name

/-- The nodes in the order of the map. -/
structure JobThreadGraph (Name : Type) where
  nodes : List (JobThreadNode Name)
  nodup : (nodes.map JobThreadNode.name).Nodup
  known : ∀ node ∈ nodes, ∀ dep ∈ node.depsList, dep ∈ nodes.map JobThreadNode.name

namespace JobThreadGraph

def names (g : JobThreadGraph Name) : List Name := g.nodes.map JobThreadNode.name

def empty : JobThreadGraph Name := ⟨[], List.nodup_nil, by simp⟩

variable [DecidableEq Name]

def addNode (g : JobThreadGraph Name) (name : Name) (task : Bool) : Bool × JobThreadGraph Name :=
  if h : name ∈ g.names then (false, g)
  else (true, {
    nodes := g.nodes ++ [⟨name, task, []⟩]
    nodup := by
      rw [List.map_append]
      exact List.Nodup.append g.nodup (List.nodup_singleton _) (by simpa [names] using h)
    known := by
      intro node hnode dep hdep
      rw [List.map_append]
      rcases List.mem_append.1 hnode with hnode | hnode
      · exact List.mem_append_left _ (g.known node hnode dep hdep)
      · rw [List.mem_singleton.1 hnode] at hdep
        simp at hdep })

/-- The new edge goes behind the others of its node. -/
def addEdge (g : JobThreadGraph Name) (source target : Name) : Bool × JobThreadGraph Name :=
  if h : source ∈ g.names ∧ target ∈ g.names then
    let extend := fun node : JobThreadNode Name =>
      if node.name = source then { node with depsList := node.depsList ++ [target] } else node
    have hnames : (g.nodes.map extend).map JobThreadNode.name = g.names := by
      rw [List.map_map]
      apply List.map_congr_left
      intro node _
      simp only [Function.comp_apply, extend]
      split <;> rfl
    (true, {
      nodes := g.nodes.map extend
      nodup := hnames ▸ g.nodup
      known := by
        rw [hnames]
        intro node hnode dep hdep
        obtain ⟨old, hold, rfl⟩ := List.mem_map.1 hnode
        simp only [extend] at hdep
        split at hdep
        · rcases List.mem_append.1 hdep with hdep | hdep
          · exact g.known old hold dep hdep
          · rw [List.mem_singleton.1 hdep]
            exact h.2
        · exact g.known old hold dep hdep })
  else (false, g)

/-- What `m_nodes.at(name)` has for the two fields. -/
def depsList (g : JobThreadGraph Name) (name : Name) : List Name :=
  match g.nodes.find? (·.name = name) with
  | some node => node.depsList
  | none => []

def task (g : JobThreadGraph Name) (name : Name) : Bool :=
  match g.nodes.find? (·.name = name) with
  | some node => node.task
  | none => false

/-- `v` depends on `u`. -/
def Edge (g : JobThreadGraph Name) (u v : Name) : Prop := v ∈ g.depsList u

/-- The number of nodes as an `int`. -/
def tasks (g : JobThreadGraph Name) : BitVec 32 := BitVec.ofNat 32 g.nodes.length

/-- The vertices go by their names where the code numbers them. -/
def hasCycleLocked (g : JobThreadGraph Name) : Bool :=
  CycleSearch.hasCycle (fun u => (g.depsList u).filter (· ∈ g.names)) g.names

/-- All edges of a node counted at their ends. -/
def countDeps (g : JobThreadGraph Name) (deps : List Name) (depsLeft : Name → BitVec 32) :
    Name → BitVec 32 :=
  deps.foldl (fun depsLeft dep =>
    if dep ∈ g.names then Function.update depsLeft dep (depsLeft dep + 1) else depsLeft) depsLeft

def initDeps (g : JobThreadGraph Name) : Name → BitVec 32 :=
  g.nodes.foldl (fun depsLeft node => g.countDeps node.depsList depsLeft) fun _ => 0

/-- The edges of a finished node taken off, and the nodes that became ready. -/
def releaseDeps (g : JobThreadGraph Name) :
    List Name → (Name → BitVec 32) → (Name → BitVec 32) × List Name
  | [], depsLeft => (depsLeft, [])
  | dep :: rest, depsLeft =>
    if dep ∈ g.names then
      let remaining := depsLeft dep - 1
      let (depsLeft, ready) := g.releaseDeps rest (Function.update depsLeft dep remaining)
      (depsLeft, if remaining = 0 then dep :: ready else ready)
    else g.releaseDeps rest depsLeft

def roots (g : JobThreadGraph Name) (depsLeft : Name → BitVec 32) : List Name :=
  g.names.filter (depsLeft · = 0)

end JobThreadGraph

/-- What one call of `run` makes, and below it what was done in that run. No step reads
the record. -/
structure GraphRun (Name : Type) where
  promise : Option Bool
  cnt : BitVec 32
  started : List Name
  returned : List Name
  threw : List Name
  released : List Name
  counted : List Name

def GraphRun.create : GraphRun Name := ⟨none, 0, [], [], [], [], []⟩

/-- `set_value`, which has no effect on a promise that has its value. -/
def GraphRun.setValue (run : GraphRun Name) (value : Bool) : GraphRun Name :=
  { run with promise := run.promise.or (some value) }

structure GraphState (Name : Type) where
  depsLeft : Name → BitVec 32
  failed : Bool
  runs : Nat
  run : Nat → GraphRun Name

def GraphState.create : GraphState Name := ⟨fun _ => 0, false, 0, fun _ => .create⟩

def GraphState.modify (s : GraphState Name) (r : Nat) (change : GraphRun Name → GraphRun Name) :
    GraphState Name :=
  { s with run := Function.update s.run r (change (s.run r)) }

theorem modify_run_self (s : GraphState Name) (r : Nat) (change : GraphRun Name → GraphRun Name) :
    (s.modify r change).run r = change (s.run r) :=
  Function.update_self ..

theorem modify_run_of_ne (s : GraphState Name) {r r' : Nat} (h : r' ≠ r)
    (change : GraphRun Name → GraphRun Name) : (s.modify r change).run r' = s.run r' :=
  Function.update_of_ne h ..

theorem setValue_ne_none (run : GraphRun Name) (value : Bool) : (run.setValue value).promise ≠ none := by
  simp only [GraphRun.setValue]
  cases run.promise <;> simp

theorem setValue_of_some (run : GraphRun Name) {b : Bool} (h : run.promise = some b) (value : Bool) :
    (run.setValue value).promise = some b := by
  simp [GraphRun.setValue, h]

/-- Where the closure of a node is. -/
inductive ClosurePc (Name : Type) where
  | queued
  | fetched
  | starting
  | executing
  | failing
  | breaking
  | finishing
  | releasing
  | spawning (ready : List Name)
  | counting
  deriving DecidableEq

/-- A caller with the number of its calls to come, a caller within `run`, a closure of a run,
and a closure that counted last. -/
inductive GraphThread (Name : Type) where
  | caller (calls : Nat)
  | preparing (calls r : Nat)
  | submitting (calls r : Nat)
  | closure (r : Nat) (v : Name) (pc : ClosurePc Name)
  | last (r : Nat)
  | completing (r : Nat)
  deriving DecidableEq

variable [DecidableEq Name]

/-- The atomic steps of `run`, of the closures and of `onTaskFinished`. -/
inductive GraphStep (g : JobThreadGraph Name) : LocalStep (GraphState Name) (GraphThread Name) where
  | begin (s calls) (h : ∀ r, r < s.runs → (s.run r).promise ≠ none) :
      GraphStep g s (.caller (calls + 1)) { s with failed := false, runs := s.runs + 1 }
        {.preparing calls s.runs}
  | empty (s calls r) (h : g.tasks = 0) :
      GraphStep g s (.preparing calls r) (s.modify r (·.setValue true)) {.caller calls}
  | cyclic (s calls r) (h : g.tasks ≠ 0) (hcycle : g.hasCycleLocked = true) :
      GraphStep g s (.preparing calls r) (s.modify r (·.setValue false)) {.caller calls}
  | prepare (s calls r) (h : g.tasks ≠ 0) (hcycle : g.hasCycleLocked = false) :
      GraphStep g s (.preparing calls r) { s with depsLeft := g.initDeps } {.submitting calls r}
  | submit (s calls r) (h : g.roots s.depsLeft ≠ []) :
      GraphStep g s (.submitting calls r) s
        (.caller calls ::ₘ
          Multiset.ofList ((g.roots s.depsLeft).map fun v => .closure r v .queued))
  | noRoots (s calls r) (h : g.roots s.depsLeft = []) :
      GraphStep g s (.submitting calls r) (s.modify r (·.setValue false)) {.caller calls}
  | fetch (s r v) : GraphStep g s (.closure r v .queued) s {.closure r v .fetched}
  | noTask (s r v) (h : g.task v = false) :
      GraphStep g s (.closure r v .fetched)
        (s.modify r fun run => { run with returned := v :: run.returned })
        {.closure r v .finishing}
  | skip (s r v) (h : g.task v = true) (hfailed : s.failed = true) :
      GraphStep g s (.closure r v .fetched) s {.closure r v .finishing}
  | load (s r v) (h : g.task v = true) (hfailed : s.failed = false) :
      GraphStep g s (.closure r v .fetched) s {.closure r v .starting}
  | start (s r v) :
      GraphStep g s (.closure r v .starting)
        (s.modify r fun run => { run with started := v :: run.started })
        {.closure r v .executing}
  | finish (s r v) :
      GraphStep g s (.closure r v .executing)
        (s.modify r fun run => { run with returned := v :: run.returned })
        {.closure r v .finishing}
  | throw (s r v) :
      GraphStep g s (.closure r v .executing)
        (s.modify r fun run => { run with threw := v :: run.threw })
        {.closure r v .failing}
  | fail (s r v) :
      GraphStep g s (.closure r v .failing) { s with failed := true } {.closure r v .breaking}
  | break (s r v) :
      GraphStep g s (.closure r v .breaking) (s.modify r (·.setValue false))
        {.closure r v .counting}
  | giveUp (s r v) (h : s.failed = true) :
      GraphStep g s (.closure r v .finishing) s {.closure r v .counting}
  | goOn (s r v) (h : s.failed = false) :
      GraphStep g s (.closure r v .finishing) s {.closure r v .releasing}
  | release (s r v depsLeft ready)
      (h : g.releaseDeps (g.depsList v) s.depsLeft = (depsLeft, ready)) :
      GraphStep g s (.closure r v .releasing)
        { s.modify r fun run => { run with released := v :: run.released } with
          depsLeft := depsLeft }
        {.closure r v (.spawning ready)}
  | spawn (s r v w ready) :
      GraphStep g s (.closure r v (.spawning (w :: ready))) s
        {.closure r w .queued, .closure r v (.spawning ready)}
  | spawned (s r v) : GraphStep g s (.closure r v (.spawning [])) s {.closure r v .counting}
  | count (s r v) (h : (s.run r).cnt + 1 ≠ g.tasks) :
      GraphStep g s (.closure r v .counting)
        (s.modify r fun run => { run with cnt := run.cnt + 1, counted := v :: run.counted }) 0
  | countLast (s r v) (h : (s.run r).cnt + 1 = g.tasks) :
      GraphStep g s (.closure r v .counting)
        (s.modify r fun run => { run with cnt := run.cnt + 1, counted := v :: run.counted })
        {.last r}
  | lastFailed (s r) (h : s.failed = true) : GraphStep g s (.last r) s 0
  | lastGood (s r) (h : s.failed = false) : GraphStep g s (.last r) s {.completing r}
  | complete (s r) : GraphStep g s (.completing r) (s.modify r (·.setValue true)) 0

/-- A graph that was not run, and a caller that will run it a number of times. -/
def graphStart (Name : Type) (calls : Nat) : Config (GraphState Name) (GraphThread Name) :=
  ⟨.create, {.caller calls}⟩

end JobThreads
