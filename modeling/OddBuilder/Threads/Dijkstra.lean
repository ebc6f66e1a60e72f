import OddBuilder.Library.Interleaving
import OddBuilder.Library.Relaxation
import OddBuilder.Threads.ParallelFor

/-!
# parallelDijkstra

With weights of an unsigned type whose largest value is `inf`. Each load of a
node and each exchange is a step; an exchange that fails although the node has
the expected value changes nothing and is no step. The visitor is left out.
-/

namespace JobThreads

open Interleaving

structure DijkstraNode where
  dist : Nat
  parent : Option Nat
  deriving DecidableEq

structure DijkstraResult where
  distance : List Nat
  parent : List (Option Nat)
  deriving DecidableEq

/-- The arguments and what the pool says. -/
structure DijkstraCall where
  adj : List (List (Nat × Nat))
  inf : Nat
  startVertex : Nat
  delta : Nat
  workerCount : Nat
  inWorkerThread : Bool

namespace DijkstraCall

variable (call : DijkstraCall)

def neighbors (u : Nat) : List (Nat × Nat) := call.adj.getD u []

def numShards : Nat := max 1 (call.workerCount * 2)

/-- The sum of two weights. -/
def add (a b : Nat) : Nat := (a + b) % (call.inf + 1)

def tasks (n : Nat) : List (List Nat) := parallelFor call.inWorkerThread call.workerCount n

def initVal : DijkstraNode := ⟨call.inf, none⟩

/-- The nodes with the start vertex stored. -/
def initNodes : List DijkstraNode :=
  let n := call.adj.length
  let nodes := (call.tasks n).flatten.foldl (fun nodes i => nodes.set i call.initVal)
    (List.replicate n ⟨0, some 0⟩)
  nodes.set call.startVertex ⟨0, none⟩

def result (nodes : List DijkstraNode) : DijkstraResult :=
  let n := call.adj.length
  (call.tasks n).flatten.foldl
    (fun res i =>
      let node := nodes.getD i call.initVal
      ⟨res.distance.set i node.dist, res.parent.set i node.parent⟩)
    ⟨List.replicate n 0, List.replicate n (some 0)⟩

end DijkstraCall

/-- The buffers of the shards by their numbers, and the tasks of the wave that are under way. -/
structure DijkstraState where
  nodes : List DijkstraNode
  light : Nat → List Nat
  heavy : Nat → List Nat
  latch : Nat

def DijkstraCall.node (call : DijkstraCall) (s : DijkstraState) (v : Nat) : DijkstraNode :=
  s.nodes.getD v call.initVal

/-- The body of the loop for one index; `rest` are the later indexes of the task. -/
structure RelaxJob where
  current : List Nat
  bucketLimit : Nat
  rest : List Nat
  shard : Nat
  u : Nat
  dist : Nat
  localLight : List Nat
  localHeavy : List Nat

/-- The caller and the tasks of a wave. -/
inductive DijkstraThread where
  | wave (current next : List Nat) (bucketLimit : Nat)
  | waiting (next : List Nat) (bucketLimit : Nat)
  | returned (res : DijkstraResult)
  | worker (current : List Nat) (bucketLimit : Nat) (indexes : List Nat)
  | relaxing (job : RelaxJob) (edges : List (Nat × Nat))
  | trying (job : RelaxJob) (v newDist : Nat) (old : DijkstraNode) (edges : List (Nat × Nat))
  | publishing (job : RelaxJob)
  | publishingHeavy (job : RelaxJob)

/-- The local buffers after an exchange. -/
def RelaxJob.push (job : RelaxJob) (v newDist : Nat) : RelaxJob :=
  if newDist < job.bucketLimit then { job with localLight := job.localLight ++ [v] }
  else { job with localHeavy := job.localHeavy ++ [v] }

namespace DijkstraCall

variable (call : DijkstraCall)

def beginJob (s : DijkstraState) (current : List Nat) (bucketLimit idx : Nat) (rest : List Nat) :
    RelaxJob :=
  let u := current.getD idx 0
  ⟨current, bucketLimit, rest, idx % call.numShards, u, (call.node s u).dist, [], []⟩

def nextWave (s : DijkstraState) : List Nat := (List.range call.numShards).flatMap s.light

def nextHeavy (s : DijkstraState) : List Nat := (List.range call.numShards).flatMap s.heavy

end DijkstraCall

inductive DijkstraStep (call : DijkstraCall) : LocalStep DijkstraState DijkstraThread where
  | spawn (s current next limit) :
      DijkstraStep call s (.wave current next limit)
        ⟨s.nodes, fun _ => [], fun _ => [], (call.tasks current.length).length⟩
        (.waiting next limit ::ₘ
          Multiset.ofList ((call.tasks current.length).map (.worker current limit)))
  | load (s current limit idx rest) :
      DijkstraStep call s (.worker current limit (idx :: rest)) s
        {.relaxing (call.beginJob s current limit idx rest)
          (call.neighbors (current.getD idx 0))}
  | examine (s job v weight edges) (h : call.add job.dist weight < (call.node s v).dist) :
      DijkstraStep call s (.relaxing job ((v, weight) :: edges)) s
        {.trying job v (call.add job.dist weight) (call.node s v) edges}
  | pass (s job v weight edges) (h : (call.node s v).dist ≤ call.add job.dist weight) :
      DijkstraStep call s (.relaxing job ((v, weight) :: edges)) s {.relaxing job edges}
  | exchange (s job v newDist old edges) (h : call.node s v = old) :
      DijkstraStep call s (.trying job v newDist old edges)
        { s with nodes := s.nodes.set v ⟨newDist, some job.u⟩ }
        {.relaxing (job.push v newDist) edges}
  | retry (s job v newDist old edges) (h : call.node s v ≠ old)
      (hdist : newDist < (call.node s v).dist) :
      DijkstraStep call s (.trying job v newDist old edges) s
        {.trying job v newDist (call.node s v) edges}
  | giveUp (s job v newDist old edges) (h : call.node s v ≠ old)
      (hdist : (call.node s v).dist ≤ newDist) :
      DijkstraStep call s (.trying job v newDist old edges) s {.relaxing job edges}
  | relaxed (s job) : DijkstraStep call s (.relaxing job []) s {.publishing job}
  | publish (s job) :
      DijkstraStep call s (.publishing job)
        { s with light := Function.update s.light job.shard (s.light job.shard ++ job.localLight) }
        {.publishingHeavy job}
  | publishHeavy (s job) :
      DijkstraStep call s (.publishingHeavy job)
        { s with heavy := Function.update s.heavy job.shard (s.heavy job.shard ++ job.localHeavy) }
        {.worker job.current job.bucketLimit job.rest}
  | countDown (s current limit) :
      DijkstraStep call s (.worker current limit []) { s with latch := s.latch - 1 } 0
  | again (s next limit) (h : s.latch = 0) (hlight : call.nextWave s ≠ []) :
      DijkstraStep call s (.waiting next limit) s
        {.wave (call.nextWave s) (next ++ call.nextHeavy s) limit}
  | advance (s next limit) (h : s.latch = 0) (hlight : call.nextWave s = [])
      (hnext : next ++ call.nextHeavy s ≠ []) :
      DijkstraStep call s (.waiting next limit) s
        {.wave (next ++ call.nextHeavy s) [] (call.add limit call.delta)}
  | finish (s next limit) (h : s.latch = 0) (hlight : call.nextWave s = [])
      (hnext : next ++ call.nextHeavy s = []) :
      DijkstraStep call s (.waiting next limit) s {.returned (call.result s.nodes)}

/-- The call before its first wave, or at its return. -/
def dijkstraStart (call : DijkstraCall) : Config DijkstraState DijkstraThread :=
  let n := call.adj.length
  if n = 0 then ⟨⟨[], fun _ => [], fun _ => [], 0⟩, {.returned ⟨[], []⟩}⟩
  else if n ≤ call.startVertex then
    ⟨⟨[], fun _ => [], fun _ => [], 0⟩,
      {.returned ⟨List.replicate n call.inf, List.replicate n none⟩}⟩
  else ⟨⟨call.initNodes, fun _ => [], fun _ => [], 0⟩,
    {.wave [call.startVertex] [] call.delta}⟩

/-- `room` is how much longer the path may get; the path is kept with its last vertex first. -/
def reconstructLoop (parent : List (Option Nat)) : Nat → Option Nat → List Nat → List Nat
  | _, none, path => path
  | 0, some _, _ => []
  | room + 1, some v, path => reconstructLoop parent room (parent.getD v none) (v :: path)

def reconstructPath (inf : Nat) (result : DijkstraResult) (target : Nat) : List Nat :=
  let n := result.parent.length
  if n ≤ target then []
  else if result.distance.length = n ∧ result.distance.getD target 0 = inf then []
  else reconstructLoop result.parent n (some target) []

namespace DijkstraCall

variable (call : DijkstraCall)

def Edge (u v w : Nat) : Prop := (v, w) ∈ call.neighbors u

/-- Walks from the start vertex. -/
abbrev Walk : List Nat → Nat → Prop := Relaxation.Walk call.Edge call.startVertex

structure WellFormed : Prop where
  bounded : ∀ u v w, call.Edge u v w → v < call.adj.length
  delta_pos : 0 < call.delta
  /-- No sum along a path that leaves no vertex twice is too large. -/
  representable : ∀ path length, call.Walk path length → path.tail.Nodup →
    length + call.delta ≤ call.inf

structure Exact (res : DijkstraResult) : Prop where
  length_distance : res.distance.length = call.adj.length
  length_parent : res.parent.length = call.adj.length
  unreachable : ∀ v, v < call.adj.length →
    (res.distance.getD v 0 = call.inf ↔ ¬ ∃ rest length, call.Walk (v :: rest) length)
  shortest : ∀ v, v < call.adj.length → (∃ rest length, call.Walk (v :: rest) length) →
    IsLeast {length | ∃ rest, call.Walk (v :: rest) length} (res.distance.getD v 0)
  path : ∀ v, v < call.adj.length → (∃ rest length, call.Walk (v :: rest) length) →
    ∃ rest, (reconstructPath call.inf res v).reverse = v :: rest ∧
      call.Walk (v :: rest) (res.distance.getD v 0)

end DijkstraCall

end JobThreads

/-!
## Runs of parallelDijkstra

Every distance below `inf` is the length of a path, and an edge that could lower
a distance belongs to a vertex that some wave will visit or that a task has in
work with its distance.
-/

namespace JobThreads

open Interleaving Relaxation

namespace RelaxJob

/-- The vertices that were or will be put into a bucket, or whose index is still to come. -/
def visits (job : RelaxJob) : List Nat :=
  job.localLight ++ job.localHeavy ++ job.rest.map (job.current.getD · 0)

theorem push_u (job : RelaxJob) (v newDist : Nat) : (job.push v newDist).u = job.u := by
  unfold push
  split <;> rfl

theorem push_dist (job : RelaxJob) (v newDist : Nat) : (job.push v newDist).dist = job.dist := by
  unfold push
  split <;> rfl

theorem push_shard (job : RelaxJob) (v newDist : Nat) :
    (job.push v newDist).shard = job.shard := by
  unfold push
  split <;> rfl

theorem mem_push_visits (job : RelaxJob) (v newDist x : Nat) :
    x ∈ (job.push v newDist).visits ↔ x = v ∨ x ∈ job.visits := by
  unfold push
  split <;> simp only [visits, List.mem_append, List.mem_singleton] <;> tauto

end RelaxJob

namespace DijkstraThread

/-- The vertices that a thread will still visit or give on. -/
def visits : DijkstraThread → List Nat
  | .wave current next _ => current ++ next
  | .waiting next _ => next
  | .returned _ => []
  | .worker current _ indexes => indexes.map (current.getD · 0)
  | .relaxing job _ => job.visits
  | .trying job _ _ _ _ => job.visits
  | .publishing job => job.visits
  | .publishingHeavy job => job.localHeavy ++ job.rest.map (job.current.getD · 0)

def isCaller : DijkstraThread → Bool
  | .wave _ _ _ => true
  | .waiting _ _ => true
  | .returned _ => true
  | _ => false

end DijkstraThread

open DijkstraThread

variable {call : DijkstraCall} {s s' : DijkstraState} {t : DijkstraThread}
  {born others threads : Multiset DijkstraThread}

namespace DijkstraCall

def dist (call : DijkstraCall) (s : DijkstraState) (v : Nat) : Nat := (call.node s v).dist

def parent (call : DijkstraCall) (s : DijkstraState) (v : Nat) : Option Nat :=
  (call.node s v).parent

theorem node_set {v : Nat} (hv : v < s.nodes.length) (node : DijkstraNode) :
    call.node { s with nodes := s.nodes.set v node } = Function.update (call.node s) v node := by
  funext x
  by_cases hx : x = v
  · subst hx
    simp [DijkstraCall.node, hv]
  · rw [Function.update_of_ne hx]
    simp [DijkstraCall.node, List.getElem?_set_ne (Ne.symm hx)]

theorem mem_nextWave {x : Nat} :
    x ∈ call.nextWave s ↔ ∃ i, i < call.numShards ∧ x ∈ s.light i := by
  simp [nextWave]

/-- A sum along a path with one more edge is exact and below `inf`. -/
theorem WellFormed.add_eq (hcall : call.WellFormed) {dist : Nat → Nat} {u v d w : Nat}
    (h : Attained call.Edge call.startVertex dist u d) (hedge : call.Edge u v w) :
    call.add d w = d + w ∧ d + w < call.inf := by
  obtain ⟨rest, hnodup, hjustified⟩ := h
  have hle := hcall.representable _ _ (.step hjustified.walk hedge) hnodup
  have hpos := hcall.delta_pos
  exact ⟨Nat.mod_eq_of_lt (by omega), by omega⟩

end DijkstraCall

open DijkstraCall

/-- What the nodes say, at any time. -/
structure Marked (call : DijkstraCall) (s : DijkstraState) : Prop where
  sized : s.nodes.length = call.adj.length
  start : call.dist s call.startVertex = 0
  root : call.parent s call.startVertex = none
  attained : ∀ v, call.dist s v < call.inf →
    Attained call.Edge call.startVertex (call.dist s) v (call.dist s v)
  linked : ∃ rank, ∀ v, v ≠ call.startVertex → call.dist s v < call.inf →
    Linked call.Edge (call.dist s) (call.parent s) rank v
  limited : ∀ v, call.dist s v ≤ call.inf

/-- What a thread has found out. -/
def Knows (call : DijkstraCall) (s : DijkstraState) : DijkstraThread → Prop
  | .relaxing job edges =>
    job.shard < call.numShards ∧
      Attained call.Edge call.startVertex (call.dist s) job.u job.dist ∧
      ∀ edge ∈ edges, edge ∈ call.neighbors job.u
  | .trying job v newDist old edges =>
    job.shard < call.numShards ∧
      Attained call.Edge call.startVertex (call.dist s) job.u job.dist ∧
      (∀ edge ∈ edges, edge ∈ call.neighbors job.u) ∧
      (∃ w, call.Edge job.u v w ∧ newDist = job.dist + w) ∧ newDist < old.dist
  | .publishing job => job.shard < call.numShards
  | .publishingHeavy job => job.shard < call.numShards
  | .wave current next _ => ∀ x, x ∈ call.nextWave s ∨ x ∈ call.nextHeavy s → x ∈ current ++ next
  | _ => True

/-- A successful exchange: the distance falls along an edge. -/
structure Falls (call : DijkstraCall) (s s' : DijkstraState) (job : RelaxJob) (v w : Nat) :
    Prop where
  edge : call.Edge job.u v w
  attained : Attained call.Edge call.startVertex (call.dist s) job.u job.dist
  less : job.dist + w < call.dist s v
  sized : s'.nodes.length = s.nodes.length
  dist : call.dist s' = Function.update (call.dist s) v (job.dist + w)
  parent : call.parent s' = Function.update (call.parent s) v (some job.u)

theorem Falls.le {job : RelaxJob} {v w : Nat} (h : Falls call s s' job v w) (x : Nat) :
    call.dist s' x ≤ call.dist s x := by
  rw [h.dist]
  exact update_le h.less.le x

theorem Marked.falls (hcall : call.WellFormed) (h : Marked call s) {job : RelaxJob}
    {v newDist : Nat} {old : DijkstraNode} {edges : List (Nat × Nat)}
    (hknows : Knows call s (.trying job v newDist old edges)) (hold : call.node s v = old)
    (hnodes : s'.nodes = s.nodes.set v ⟨newDist, some job.u⟩) :
    ∃ w, newDist = job.dist + w ∧ Falls call s s' job v w := by
  obtain ⟨-, hattained, -, ⟨w, hedge, hnew⟩, hlt⟩ := hknows
  have hv : v < s.nodes.length := by
    rw [h.sized]
    exact hcall.bounded _ _ _ hedge
  have hnode : call.node s' = Function.update (call.node s) v ⟨newDist, some job.u⟩ := by
    rw [← node_set hv]
    funext x
    simp [DijkstraCall.node, hnodes]
  refine ⟨w, hnew, hedge, hattained, ?_, ?_, ?_, ?_⟩
  · rw [← hnew, DijkstraCall.dist, hold]
    exact hlt
  · rw [hnodes, List.length_set]
  · funext x
    rw [DijkstraCall.dist, hnode, ← hnew]
    by_cases hx : x = v
    · subst hx
      rw [Function.update_self, Function.update_self]
    · rw [Function.update_of_ne hx, Function.update_of_ne hx]
      rfl
  · funext x
    rw [DijkstraCall.parent, hnode]
    by_cases hx : x = v
    · subst hx
      rw [Function.update_self, Function.update_self]
    · rw [Function.update_of_ne hx, Function.update_of_ne hx]
      rfl

/-- A step keeps the nodes or lets one fall. -/
theorem DijkstraStep.nodes_cases (h : DijkstraStep call s t s' born) :
    s'.nodes = s.nodes ∨ ∃ job v newDist edges,
      t = .trying job v newDist (call.node s v) edges ∧
      s'.nodes = s.nodes.set v ⟨newDist, some job.u⟩ ∧
      born = {.relaxing (job.push v newDist) edges} := by
  cases h with
  | exchange _ job v newDist old edges hold =>
    subst hold
    exact Or.inr ⟨job, v, newDist, edges, rfl, rfl, rfl⟩
  | _ => exact Or.inl rfl

theorem dist_eq_of_nodes (call : DijkstraCall) (h : s'.nodes = s.nodes) : call.dist s' = call.dist s := by
  funext v
  simp only [DijkstraCall.dist, DijkstraCall.node, h]

theorem parent_eq_of_nodes (call : DijkstraCall) (h : s'.nodes = s.nodes) : call.parent s' = call.parent s := by
  funext v
  simp only [DijkstraCall.parent, DijkstraCall.node, h]

theorem DijkstraStep.falls_or (hcall : call.WellFormed) (hmarked : Marked call s)
    (hknows : Knows call s t) (h : DijkstraStep call s t s' born) :
    s'.nodes = s.nodes ∨ ∃ job v w edges, t = .trying job v (job.dist + w) (call.node s v) edges ∧
      born = {.relaxing (job.push v (job.dist + w)) edges} ∧ Falls call s s' job v w := by
  rcases h.nodes_cases with hnodes | ⟨job, v, newDist, edges, rfl, hnodes, rfl⟩
  · exact Or.inl hnodes
  · obtain ⟨w, rfl, hfalls⟩ := hmarked.falls hcall hknows rfl hnodes
    exact Or.inr ⟨job, v, w, edges, rfl, rfl, hfalls⟩

theorem Marked.of_falls (h : Marked call s) {job : RelaxJob} {v w : Nat}
    (hfalls : Falls call s s' job v w) : Marked call s' := by
  have hstart : v ≠ call.startVertex := by
    rintro rfl
    have hless := hfalls.less
    rw [h.start] at hless
    omega
  constructor
  · rw [hfalls.sized, h.sized]
  · rw [hfalls.dist, Function.update_of_ne (Ne.symm hstart), h.start]
  · rw [hfalls.parent, Function.update_of_ne (Ne.symm hstart), h.root]
  · intro x hx
    by_cases hxv : x = v
    · subst hxv
      rw [hfalls.dist, Function.update_self]
      exact hfalls.attained.relax hfalls.edge hfalls.less
    · have hsame : call.dist s' x = call.dist s x := by
        rw [hfalls.dist, Function.update_of_ne hxv]
      rw [hsame] at hx ⊢
      exact (h.attained x hx).mono hfalls.le
  · obtain ⟨rank, hrank⟩ := h.linked
    refine ⟨Function.update rank v (rank job.u + 1), ?_⟩
    intro x hx hlt
    rw [hfalls.dist, hfalls.parent]
    refine Linked.relax hfalls.edge hfalls.attained.le hfalls.less ?_
    intro hxv
    apply hrank x hx
    rw [hfalls.dist, Function.update_of_ne hxv] at hlt
    exact hlt
  · intro x
    exact (hfalls.le x).trans (h.limited x)

theorem Marked.of_nodes (h : Marked call s) (hnodes : s'.nodes = s.nodes) : Marked call s' := by
  have hdist := dist_eq_of_nodes call hnodes
  have hparent := parent_eq_of_nodes call hnodes
  constructor
  · rw [hnodes, h.sized]
  · rw [hdist, h.start]
  · rw [hparent, h.root]
  · rw [hdist]
    exact h.attained
  · rw [hdist, hparent]
    exact h.linked
  · rw [hdist]
    exact h.limited

def DijkstraThread.isWaiting : DijkstraThread → Bool
  | .waiting _ _ => true
  | _ => false

/-- There is one caller, and tasks only while it waits for as many. -/
structure Phase (s : DijkstraState) (threads : Multiset DijkstraThread) : Prop where
  callers : count isCaller threads = 1
  latched : (∃ t ∈ threads, t.isWaiting = true) → threads.card = s.latch + 1
  quiet : (∃ t ∈ threads, t.isCaller = true ∧ t.isWaiting = false) → threads.card = 1

/-- Beside another thread there is no caller but a waiting one. -/
theorem Phase.others_waiting (h : Phase s (t ::ₘ others)) :
    ∀ u ∈ others, u.isCaller = true → u.isWaiting = true := by
  intro u hu hcaller
  by_contra hwaiting
  have hcard := h.quiet ⟨u, Multiset.mem_cons_of_mem hu, hcaller, Bool.not_eq_true _ ▸ hwaiting⟩
  rw [Multiset.card_cons] at hcard
  rw [Multiset.card_eq_zero.1 (Nat.succ.inj hcard)] at hu
  exact Multiset.notMem_zero u hu

theorem isCaller_of_isWaiting (h : t.isWaiting = true) : t.isCaller = true := by
  cases t <;> first | rfl | cases h

/-- A task goes on as one task. -/
theorem Phase.task {u : DijkstraThread} (h : Phase s (t ::ₘ others)) (ht : t.isCaller = false)
    (hu : u.isCaller = false) (hlatch : s'.latch = s.latch) : Phase s' ({u} + others) := by
  obtain ⟨hcallers, hlatched, hquiet⟩ := h
  simp only [count_cons, ht, Multiset.card_cons] at *
  constructor
  · simpa [hu] using hcallers
  · rintro ⟨x, hx, hwaiting⟩
    rcases Multiset.mem_add.1 hx with hx | hx
    · rw [Multiset.mem_singleton.1 hx] at hwaiting
      rw [isCaller_of_isWaiting hwaiting] at hu
      cases hu
    · have hcard := hlatched ⟨x, Multiset.mem_cons_of_mem hx, hwaiting⟩
      rw [Multiset.card_add, Multiset.card_singleton]
      omega
  · rintro ⟨x, hx, hcaller, hwaiting⟩
    rcases Multiset.mem_add.1 hx with hx | hx
    · rw [Multiset.mem_singleton.1 hx, hu] at hcaller
      cases hcaller
    · have hcard := hquiet ⟨x, Multiset.mem_cons_of_mem hx, hcaller, hwaiting⟩
      rw [Multiset.card_add, Multiset.card_singleton]
      omega

/-- When the latch is zero, the waiting caller is alone. -/
theorem Phase.alone (h : Phase s (t ::ₘ others)) (ht : t.isWaiting = true) (hlatch : s.latch = 0) :
    others = 0 := by
  have hcard := h.latched ⟨t, Multiset.mem_cons_self _ _, ht⟩
  rw [Multiset.card_cons, hlatch] at hcard
  exact Multiset.card_eq_zero.1 (Nat.succ.inj hcard)

theorem phase_singleton {u : DijkstraThread} (hu : u.isCaller = true) (hwaiting : u.isWaiting = false) :
    Phase s ({u} + 0) := by
  rw [add_zero]
  constructor
  · rw [count_singleton, if_pos hu]
  · rintro ⟨x, hx, hx'⟩
    rw [Multiset.mem_singleton.1 hx, hwaiting] at hx'
    cases hx'
  · intro _
    exact Multiset.card_singleton u

theorem Phase.step (h : Phase s (t ::ₘ others)) (hnext : DijkstraStep call s t s' born) :
    Phase s' (born + others) := by
  cases hnext with
  | spawn _ current next limit =>
    have hcard := h.quiet ⟨_, Multiset.mem_cons_self _ _, rfl, rfl⟩
    rw [Multiset.card_cons] at hcard
    rw [Multiset.card_eq_zero.1 (Nat.succ.inj hcard), add_zero]
    have htasks : ∀ u ∈ Multiset.ofList ((call.tasks current.length).map (.worker current limit)),
        isCaller u = false := by
      intro u hu
      obtain ⟨indexes, -, rfl⟩ := List.mem_map.1 (Multiset.mem_coe.1 hu)
      rfl
    constructor
    · rw [count_cons, count_eq_zero.2]
      · rfl
      · intro u hu
        rw [htasks u hu]
        exact Bool.false_ne_true
    · intro _
      simp
    · rintro ⟨u, hu, hcaller, hwaiting⟩
      rcases Multiset.mem_cons.1 hu with rfl | hu
      · cases hwaiting
      · rw [htasks u hu] at hcaller
        cases hcaller
  | countDown _ current limit =>
    obtain ⟨hcallers, hlatched, hquiet⟩ := h
    rw [zero_add]
    simp only [count_cons, Multiset.card_cons] at *
    constructor
    · exact hcallers
    · rintro ⟨u, hu, hwaiting⟩
      have hcard := hlatched ⟨u, Multiset.mem_cons_of_mem hu, hwaiting⟩
      have hpos := Multiset.card_pos_iff_exists_mem.2 ⟨u, hu⟩
      change others.card = s.latch - 1 + 1
      omega
    · rintro ⟨u, hu, hcaller, hwaiting⟩
      have hcard := hquiet ⟨u, Multiset.mem_cons_of_mem hu, hcaller, hwaiting⟩
      have hpos := Multiset.card_pos_iff_exists_mem.2 ⟨u, hu⟩
      omega
  | again _ next limit hlatch | advance _ next limit hlatch | finish _ next limit hlatch =>
    rw [h.alone rfl hlatch]
    exact phase_singleton rfl rfl
  | _ => exact h.task rfl rfl rfl

end JobThreads
