import Mathlib.Data.Prod.Lex
import OddBuilder.Threads.ParallelBfsRuns

/-!
# What parallel_bfs returns

From pass to pass the frontier is the next level. Each pass ends, and the levels
are not more than the vertices.
-/

namespace JobThreads

open Interleaving Levels Multiset BfsCall BfsTask

variable {call : BfsCall} {level : BfsLevel} {s s' : BfsState}
variable {k v : Nat} {c c' : BfsConfig}

theorem map_getD_range (l : List Nat) : (List.range l.length).map (l.getD · 0) = l := by
  apply List.ext_getElem
  · simp
  · intro i hi hi'
    simp [hi']

/-- The vertices of a level are vertices. -/
theorem BfsCall.at_lt (hstart : call.startVertex < call.adj.length) (h : call.At k v) :
    v < call.adj.length := by
  obtain ⟨hwalk⟩ := h
  cases hwalk with
  | start => exact hstart
  | step _ hedge => exact hedge.2

theorem BfsCall.depth_lt (hstart : call.startVertex < call.adj.length) (h : call.At k v) :
    k < call.adj.length := by
  have hvertices : ∀ j u, call.At j u → u ∈ Finset.range call.adj.length := fun j u hu =>
    Finset.mem_range.2 (at_lt hstart hu)
  have hlt := h.lt_card hvertices
  rwa [Finset.card_range] at hlt

/-- The tasks of a pass. -/
def BfsCall.workers (call : BfsCall) (level : BfsLevel) : List BfsTask :=
  (call.tasks level.frontier.length).map .worker

theorem held_workers (call : BfsCall) (level : BfsLevel) (s : BfsState) :
    Held call { s with shards := fun _ => [] } (Multiset.ofList (call.workers level)) = 0 := by
  rw [Held]
  simp [nextFrontier, workers, holds]

theorem visits_workers (call : BfsCall) (level : BfsLevel) (s : BfsState) :
    Visits level s (Multiset.ofList (call.workers level)) =
      Multiset.ofList (s.visits ++ level.frontier.map fun v => (level.depth, v)) := by
  have hflat : (call.workers level).flatMap (toVisit level) =
      level.frontier.map fun v => (level.depth, v) := by
    calc (call.workers level).flatMap (toVisit level)
        = (call.tasks level.frontier.length).flatten.map
            (fun idx => (level.depth, level.frontier.getD idx 0)) := by
          rw [workers, List.flatMap_map, List.map_flatten]
          rfl
      _ = ((List.range level.frontier.length).map (level.frontier.getD · 0)).map
            fun v => (level.depth, v) := by
          rw [tasks, parallelFor_flatten, List.map_map]
          rfl
      _ = level.frontier.map fun v => (level.depth, v) := by rw [map_getD_range]
  rw [Visits, coe_bind, hflat, coe_add]

/-- The index of every vertex of the frontier is in one of the tasks. -/
theorem exists_worker {u : Nat} (hu : u ∈ level.frontier) (v : Nat) :
    ∃ t ∈ Multiset.ofList (call.workers level), t.Covers level u v := by
  obtain ⟨idx, hidx, rfl⟩ := List.getElem_of_mem hu
  have hmem : idx ∈ (call.tasks level.frontier.length).flatten := by
    rw [tasks, parallelFor_flatten]
    exact List.mem_range.2 hidx
  obtain ⟨indexes, hindexes, hidx'⟩ := List.mem_flatten.1 hmem
  refine ⟨.worker indexes, ?_, Or.inl ⟨idx, hidx', ?_⟩⟩
  · exact mem_coe.2 (List.mem_map.2 ⟨indexes, hindexes, rfl⟩)
  · rw [List.getD_eq_getElem?_getD, List.getElem?_eq_getElem hidx, Option.getD_some]

/-- A pass begins. -/
theorem BfsReady.spawn (hstart : call.startVertex < call.adj.length) (h : BfsReady call level s)
    (hfrontier : level.frontier ≠ []) :
    BfsPass call level { s with shards := fun _ => [] } (Multiset.ofList (call.workers level)) := by
  have hentries := h.entries
  have hmemv : ∀ v, (level.depth, v) ∈ level.frontier.map (fun v => (level.depth, v)) ↔
      call.At level.depth v := by
    intro v
    rw [← hentries.frontier v]
    simp
  constructor
  · obtain ⟨⟨hvisited, hdepth, hparent⟩, hlevel, hsettled, huntouched⟩ := hentries
    exact ⟨⟨hvisited, hdepth, hparent⟩, hlevel, hsettled, huntouched⟩
  · intro t ht
    obtain ⟨indexes, hindexes, rfl⟩ := List.mem_map.1 (mem_coe.1 ht)
    intro idx hidx
    have hmem : idx ∈ (call.tasks level.frontier.length).flatten :=
      List.mem_flatten.2 ⟨indexes, hindexes, hidx⟩
    rw [tasks, parallelFor_flatten] at hmem
    exact List.mem_range.1 hmem
  · rw [held_workers]
    exact nodup_zero
  · intro v
    rw [held_workers]
    refine iff_of_false (notMem_zero v) ?_
    rintro ⟨hv, hvisited, hnone⟩
    obtain ⟨k, hk, hat⟩ := h.reached v hv hvisited
    exact hnone k hk hat
  · intro v hv
    rw [held_workers] at hv
    exact absurd hv (notMem_zero v)
  · intro v hv
    rw [held_workers] at hv
    exact absurd hv (notMem_zero v)
  · intro u v hu _
    exact Or.inr (exists_worker ((hentries.frontier u).2 hu) v)
  · rw [visits_workers, coe_nodup, List.nodup_append]
    refine ⟨h.once, ?_, ?_⟩
    · exact h.nodup.map fun v w heq => (Prod.mk.inj heq).2
    · rintro ⟨k, v⟩ hold _ hnew rfl
      obtain ⟨w, -, heq⟩ := List.mem_map.1 hnew
      have hlt := ((h.visits k v).1 hold).1
      rw [← (Prod.mk.inj heq).1] at hlt
      exact Nat.lt_irrefl _ hlt
  · intro k v
    rw [visits_workers, mem_coe, List.mem_append, h.visits k v]
    constructor
    · rintro (⟨hlt, hat⟩ | hnew)
      · exact ⟨hlt.le, hat⟩
      · obtain ⟨w, hw, heq⟩ := List.mem_map.1 hnew
        obtain ⟨rfl, rfl⟩ := Prod.mk.inj heq
        exact ⟨le_rfl, (hentries.frontier w).1 hw⟩
    · rintro ⟨hle, hat⟩
      rcases Nat.lt_or_eq_of_le hle with hlt | rfl
      · exact Or.inl ⟨hlt, hat⟩
      · exact Or.inr ((hmemv v).2 hat)
  · obtain ⟨v, hv⟩ := List.exists_mem_of_ne_nil _ hfrontier
    exact depth_lt hstart ((hentries.frontier v).1 hv)

/-- A pass ends with the next level in the buffers. -/
theorem BfsPass.join (hsize : call.adj.length < 2 ^ 64) (h : BfsPass call level s 0) :
    BfsReady call ⟨(level.depth + 1) % 2 ^ 64, call.nextFrontier s⟩ s := by
  have hentries := h.entries
  have hbounded := h.bounded
  have hheld : Held call s 0 = Multiset.ofList (call.nextFrontier s) := by
    rw [Held, zero_bind, add_zero]
  have hvisits : Visits level s 0 = Multiset.ofList s.visits := by
    rw [Visits, zero_bind, add_zero]
  have hcovered : ∀ u v, call.At level.depth u → call.Edge u v → s.visited.getD v false = true := by
    intro u v hu hedge
    rcases h.covered u v hu hedge with hvisited | ⟨t, ht, -⟩
    · exact hvisited
    · exact absurd ht (notMem_zero t)
  have hnext : ∀ v, v ∈ call.nextFrontier s ↔ call.At (level.depth + 1) v := by
    intro v
    rw [← mem_coe, ← hheld]
    refine Iff.trans ?_ at_succ_iff.symm
    constructor
    · intro hv
      exact ⟨h.reached v hv, ((h.held v).1 hv).2.2⟩
    · rintro ⟨⟨u, hu, hedge⟩, hnone⟩
      exact (h.held v).2 ⟨hedge.2, hcovered u v hu hedge, hnone⟩
  have hrecorded : ∀ v, v ∈ call.nextFrontier s →
      s.visited.getD v false = true ∧ call.Recorded s (level.depth + 1) v := by
    intro v hv
    rw [← mem_coe, ← hheld] at hv
    refine ⟨((h.held v).1 hv).2.1, ?_⟩
    rcases h.recorded v hv with hrecorded | ⟨job, neighbors, hmem⟩
    · exact hrecorded
    · exact absurd hmem (notMem_zero _)
  rw [Nat.mod_eq_of_lt (show level.depth + 1 < 2 ^ 64 by omega)]
  constructor
  · refine ⟨hentries.sized, hnext, ?_, hentries.untouched⟩
    intro k v hk hat
    rcases Nat.le_succ_iff.1 hk with hle | rfl
    · exact hentries.settled k v hle hat
    · exact hrecorded v ((hnext v).2 hat)
  · rw [← coe_nodup, ← hheld]
    exact h.nodup
  · intro v hv hvisited
    by_cases hold : ∃ k, k ≤ level.depth ∧ call.At k v
    · obtain ⟨k, hk, hat⟩ := hold
      exact ⟨k, hk.trans (Nat.le_succ _), hat⟩
    · refine ⟨level.depth + 1, le_rfl, (hnext v).1 ?_⟩
      rw [← mem_coe, ← hheld]
      exact (h.held v).2 ⟨hv, hvisited, fun k hk hat => hold ⟨k, hk, hat⟩⟩
  · rw [← coe_nodup, ← hvisits]
    exact h.once
  · intro k v
    rw [← mem_coe, ← hvisits, h.visits k v, Nat.lt_succ_iff]
  · exact hbounded

theorem ready_start (hstart : call.startVertex < call.adj.length) :
    BfsReady call ⟨0, [call.startVertex]⟩ call.initState := by
  have hnone : ∀ v, v < call.adj.length → call.initResult.depth.getD v 0 = sizeMax ∧
      call.initResult.parent.getD v 0 = sizeMax := by
    intro v hv
    simp [initResult, hv]
  have hvisited : ∀ v, call.initState.visited.getD v false = true ↔ v = call.startVertex := by
    intro v
    rw [initState, getD_set_eq (by simpa using hstart)]
    by_cases hv : v = call.startVertex
    · simp [hv]
    · have hreplicate : (List.replicate call.adj.length false).getD v false = false := by
        rw [List.getD_eq_getElem?_getD, List.getElem?_replicate]
        split
        · rfl
        · rfl
      rw [hreplicate]
      simp [hv]
  constructor
  · constructor
    · refine ⟨?_, ?_, ?_⟩ <;> simp [initState, initResult]
    · exact fun v => List.mem_singleton.trans at_zero.symm
    · intro k v hk hat
      obtain rfl := Nat.le_zero.1 hk
      obtain rfl := at_zero.1 hat
      refine ⟨(hvisited _).2 rfl, ?_, (hnone _ hstart).2⟩
      rw [initState, getD_set_eq (by simpa [initResult] using hstart), if_pos rfl]
    · intro v hv hunvisited
      have hne : v ≠ call.startVertex := by
        rintro rfl
        rw [(hvisited _).2 rfl] at hunvisited
        cases hunvisited
      rw [initState, getD_set_eq (by simpa [initResult] using hstart), if_neg hne]
      exact hnone v hv
  · exact List.nodup_singleton _
  · intro v _ hv
    exact ⟨0, le_rfl, at_zero.2 ((hvisited v).1 hv)⟩
  · exact List.nodup_nil
  · intro k v
    simp [initState]
  · exact Nat.zero_le _

theorem depth_of_recorded (h : call.Recorded s k v) : s.ret.depth.getD v 0 = k := by
  cases k with
  | zero => exact h.1
  | succ k => exact h.1

/-- When the frontier is empty every vertex that can be reached has its entries. -/
theorem BfsReady.exact (hsize : call.adj.length < 2 ^ 64) (hstart : call.startVertex < call.adj.length)
    (h : BfsReady call level s) (hfrontier : level.frontier = []) : call.Exact s.ret s.visits := by
  have hentries := h.entries
  have hempty : ∀ u, ¬ call.At level.depth u := by
    intro u hu
    have hmem := (hentries.frontier u).2 hu
    rw [hfrontier] at hmem
    cases hmem
  have hfound : ∀ k v, call.At k v → call.Recorded s k v := fun k v hat =>
    (hentries.settled k v (hat.lt_of_empty hempty).le hat).2
  have hdepth : ∀ k v, call.At k v → s.ret.depth.getD v 0 = k := fun k v hat =>
    depth_of_recorded (hfound k v hat)
  have hunreached : ∀ v, v < call.adj.length → (¬ ∃ k, call.Walk k v) →
      s.ret.depth.getD v 0 = sizeMax ∧ s.ret.parent.getD v 0 = sizeMax := by
    intro v hv hnone
    apply hentries.untouched v hv
    rw [← Bool.not_eq_true]
    intro hvisited
    obtain ⟨k, -, hat⟩ := h.reached v hv hvisited
    exact hnone ⟨k, hat.walk⟩
  constructor
  · exact hentries.sized.depth
  · exact hentries.sized.parent
  · intro v hv
    constructor
    · rintro hmax ⟨k, hwalk⟩
      obtain ⟨j, -, hat⟩ := hwalk.exists_at
      have hlt := depth_lt hstart hat
      rw [hdepth j v hat, sizeMax] at hmax
      omega
    · exact fun hnone => (hunreached v hv hnone).1
  · rintro v hv ⟨k, hwalk⟩
    obtain ⟨j, -, hat⟩ := hwalk.exists_at
    rw [hdepth j v hat]
    exact hat
  · rintro v hv ⟨k, hwalk⟩ hne
    obtain ⟨j, -, hat⟩ := hwalk.exists_at
    cases j with
    | zero => exact absurd (at_zero.1 hat) hne
    | succ j =>
      obtain ⟨hj, hparent, hedge⟩ := hfound _ _ hat
      refine ⟨hedge, ?_⟩
      rw [hdepth j _ hparent, hj]
  · rintro v hv (rfl | hnone)
    · exact (hfound 0 _ at_start).2
    · exact (hunreached v hv hnone).2
  · apply List.Nodup.map_on ?_ h.once
    rintro ⟨k, v⟩ hk ⟨j, w⟩ hj heq
    obtain rfl : v = w := heq
    have hkat := ((h.visits k v).1 hk).2
    have hjat := ((h.visits j v).1 hj).2
    rw [hkat.unique hjat]
  · intro k v
    rw [h.visits k v]
    constructor
    · rintro ⟨-, hat⟩
      exact ⟨at_lt hstart hat, ⟨k, hat.walk⟩, hdepth k v hat⟩
    · rintro ⟨-, ⟨j, hwalk⟩, hk⟩
      obtain ⟨i, -, hat⟩ := hwalk.exists_at
      rw [hdepth i v hat] at hk
      subst hk
      exact ⟨hat.lt_of_empty hempty, hat⟩

/-- A start outside the graph reaches nothing. -/
theorem bfs_exact_outside (call : BfsCall) (hstart : call.adj.length ≤ call.startVertex) :
    call.Exact call.initResult [] := by
  have hnone : ∀ v, v < call.adj.length → ¬ ∃ k, call.Walk k v := by
    have hwalk : ∀ k v, call.Walk k v → v = call.startVertex := by
      intro k v h
      induction h with
      | start => rfl
      | step _ hedge ih =>
        subst ih
        simp [BfsCall.Edge, neighbors, hstart] at hedge
    rintro v hv ⟨k, h⟩
    have heq := hwalk k v h
    omega
  constructor
  · simp [initResult]
  · simp [initResult]
  · intro v hv
    refine iff_of_true ?_ (hnone v hv)
    simp [initResult, hv]
  · exact fun v hv hwalk => absurd hwalk (hnone v hv)
  · exact fun v hv hwalk => absurd hwalk (hnone v hv)
  · intro v hv _
    simp [initResult, hv]
  · exact List.nodup_nil
  · intro k v
    refine iff_of_false List.not_mem_nil ?_
    rintro ⟨hv, hwalk, -⟩
    exact hnone v hv hwalk

def restCost (call : BfsCall) (level : BfsLevel) (rest : List Nat) : Nat :=
  (rest.map fun idx => 5 * (call.neighbors (level.frontier.getD idx 0)).length + 2).sum

/-- The steps that a task will take at most. -/
def BfsTask.cost (call : BfsCall) (level : BfsLevel) : BfsTask → Nat
  | .worker indexes => 1 + restCost call level indexes
  | .claiming job neighbors =>
    2 + restCost call level job.rest + 5 * neighbors.length + 3 * job.localBatch.length
  | .recording job _ neighbors =>
    6 + restCost call level job.rest + 5 * neighbors.length + 3 * job.localBatch.length
  | .flushing job neighbors => 3 + restCost call level job.rest + 5 * neighbors.length

theorem push_cost_le (call : BfsCall) (level : BfsLevel) (job : BfsJob) (u : Nat)
    (neighbors : List Nat) : (job.push u neighbors).cost call level ≤
      5 + restCost call level job.rest + 5 * neighbors.length + 3 * job.localBatch.length := by
  unfold BfsJob.push
  dsimp only
  split
  · simp only [cost]
    omega
  · simp only [cost, List.length_append, List.length_singleton]
    omega

theorem BfsTaskStep.cost_lt {t : BfsTask} {born : Multiset BfsTask}
    (h : BfsTaskStep call level s t s' born) :
    (born.map (cost call level)).sum < t.cost call level := by
  cases h with
  | visit _ idx rest =>
    simp only [map_singleton, sum_singleton, cost, restCost, List.map_cons,
      List.sum_cons, List.length_nil]
    omega
  | record _ job u neighbors =>
    refine Nat.lt_of_le_of_lt (push_cost_le call level job u neighbors) ?_
    simp only [cost]
    omega
  | flushRest _ job hbatch =>
    have hpos := List.length_pos_iff.2 hbatch
    simp only [map_singleton, sum_singleton, cost]
    omega
  | done =>
    simp only [map_zero, sum_zero, cost]
    omega
  | _ =>
    simp only [map_singleton, sum_singleton, cost, List.length_cons, List.length_nil]
    omega

/-- The levels to come, and behind them the steps of the pass. -/
def bfsMeasure (call : BfsCall) : BfsConfig → Nat × Nat
  | .loop level _ =>
    (call.adj.length + 1 - level.depth,
      2 + ((Multiset.ofList (call.workers level)).map (BfsTask.cost call level)).sum)
  | .running level c =>
    (call.adj.length + 1 - level.depth, 1 + (c.threads.map (BfsTask.cost call level)).sum)
  | .returned _ _ => (0, 0)

/-- What holds in every state of a search. -/
def BfsConfig.Holds (call : BfsCall) : BfsConfig → Prop
  | .loop level s => BfsReady call level s
  | .running level c => BfsPass call level c.shared c.threads
  | .returned ret visits => call.Exact ret visits

theorem BfsStep.holds (hsize : call.adj.length < 2 ^ 64)
    (hstart : call.startVertex < call.adj.length) (h : BfsStep call c c') (hholds : c.Holds call) :
    c'.Holds call := by
  cases h with
  | spawn level s hfrontier => exact BfsReady.spawn hstart hholds hfrontier
  | turn level hturn =>
    cases hturn with
    | turn others _ hnext => exact BfsPass.step hsize hholds hnext
  | join level s => exact BfsPass.join hsize hholds
  | finish level s hfrontier => exact BfsReady.exact hsize hstart hholds hfrontier

theorem BfsConfig.Holds.run (hsize : call.adj.length < 2 ^ 64)
    (hstart : call.startVertex < call.adj.length) (h : c.Holds call)
    (hrun : Relation.ReflTransGen (BfsStep call) c c') : c'.Holds call := by
  induction hrun with
  | refl => exact h
  | tail _ hlast ih => exact hlast.holds hsize hstart ih

theorem BfsStep.lowers (hsize : call.adj.length < 2 ^ 64) (h : BfsStep call c c')
    (hholds : c.Holds call) :
    Prod.Lex (· < ·) (· < ·) (bfsMeasure call c') (bfsMeasure call c) := by
  cases h with
  | spawn level s =>
    apply Prod.Lex.right
    exact Nat.add_lt_add_right (by decide : 1 < 2) _
  | turn level hturn =>
    cases hturn with
    | turn others _ hnext =>
      apply Prod.Lex.right
      have hcost := hnext.cost_lt
      simp only [map_add, sum_add, map_cons, sum_cons]
      omega
  | join level s =>
    apply Prod.Lex.left
    have hbounded := BfsPass.bounded hholds
    dsimp only
    omega
  | finish level s =>
    apply Prod.Lex.left
    have hbounded := BfsReady.bounded hholds
    omega

/-- Only at the return is there nothing left to do. -/
theorem exists_bfsStep (call : BfsCall) (c : BfsConfig) :
    (∃ c', BfsStep call c c') ∨ ∃ ret visits, c = .returned ret visits := by
  cases c with
  | loop level s =>
    left
    by_cases hfrontier : level.frontier = []
    · exact ⟨_, .finish level s hfrontier⟩
    · exact ⟨_, .spawn level s hfrontier⟩
  | running level c =>
    left
    obtain ⟨s, threads⟩ := c
    rcases threads.empty_or_exists_mem with rfl | ⟨t, ht⟩
    · exact ⟨_, .join level s⟩
    · have hnext : ∃ s' born, BfsTaskStep call level s t s' born := by
        cases t with
        | worker indexes =>
          cases indexes with
          | nil => exact ⟨_, _, .done s⟩
          | cons idx rest => exact ⟨_, _, .visit s idx rest⟩
        | claiming job neighbors =>
          cases neighbors with
          | nil =>
            by_cases hbatch : job.localBatch = []
            · exact ⟨_, _, .next s job hbatch⟩
            · exact ⟨_, _, .flushRest s job hbatch⟩
          | cons u neighbors =>
            rcases Nat.lt_or_ge u call.adj.length with hu | hu
            · cases hvisited : s.visited.getD u false with
              | true => exact ⟨_, _, .taken s job u neighbors hu hvisited⟩
              | false => exact ⟨_, _, .claim s job u neighbors hu hvisited⟩
            · exact ⟨_, _, .outside s job u neighbors hu⟩
        | recording job u neighbors => exact ⟨_, _, .record s job u neighbors⟩
        | flushing job neighbors => exact ⟨_, _, .flush s job neighbors⟩
      obtain ⟨s', born, hnext⟩ := hnext
      obtain ⟨c', hstep⟩ := exists_step (c := ⟨s, threads⟩) ht hnext
      exact ⟨_, .turn level hstep⟩
  | returned ret visits => exact Or.inr ⟨ret, visits, rfl⟩

/-- Every run ends, and where nothing can go on the call has returned the depths and parents, with
one visit of every vertex that can be reached. -/
theorem parallelBfs_exact (call : BfsCall) (hsize : call.adj.length < 2 ^ 64) :
    Acc (fun c' c => BfsStep call c c') (bfsStart call) ∧
      ∀ c, Relation.ReflTransGen (BfsStep call) (bfsStart call) c →
        (∀ c', ¬ BfsStep call c c') →
        ∃ ret visits, c = .returned ret visits ∧ call.Exact ret visits := by
  by_cases hstart : call.startVertex < call.adj.length
  · have hne : ¬ (call.adj.length = 0 ∨ call.adj.length ≤ call.startVertex) := by omega
    have hbegin : (bfsStart call).Holds call := by
      rw [bfsStart, if_neg hne]
      exact ready_start hstart
    constructor
    · apply acc_of_lowers (Prod.lex Nat.lt_wfRel Nat.lt_wfRel).wf (bfsMeasure call)
        (BfsConfig.Holds call) ?_ hbegin
      intro c c' hholds hstep
      exact ⟨hstep.holds hsize hstart hholds, hstep.lowers hsize hholds⟩
    · intro c hrun hstuck
      have hholds := hbegin.run hsize hstart hrun
      rcases exists_bfsStep call c with ⟨c', hstep⟩ | ⟨ret, visits, rfl⟩
      · exact absurd hstep (hstuck c')
      · exact ⟨ret, visits, rfl, hholds⟩
  · have hoff : call.adj.length = 0 ∨ call.adj.length ≤ call.startVertex := by omega
    have hbegin : bfsStart call = .returned call.initResult [] := by rw [bfsStart, if_pos hoff]
    have hlast : ∀ c', ¬ BfsStep call (.returned call.initResult []) c' := by
      intro c' h
      cases h
    rw [hbegin]
    constructor
    · exact ⟨_, fun c' h => absurd h (hlast c')⟩
    · intro c hrun _
      rcases Relation.ReflTransGen.cases_head hrun with rfl | ⟨c', hstep, -⟩
      · exact ⟨_, _, rfl, bfs_exact_outside call (by omega)⟩
      · exact absurd hstep (hlast c')

/-- A vertex with two ways to it, a loop and a neighbor that is no vertex. -/
def diamond : BfsCall := ⟨[[1, 2], [3, 1], [3, 9], []], 0, 2, false⟩

theorem parallelBfs_exact_diamond :
    Acc (fun c' c => BfsStep diamond c c') (bfsStart diamond) ∧
      ∀ c, Relation.ReflTransGen (BfsStep diamond) (bfsStart diamond) c →
        (∀ c', ¬ BfsStep diamond c c') →
        ∃ ret visits, c = .returned ret visits ∧ diamond.Exact ret visits :=
  parallelBfs_exact diamond (by decide)

end JobThreads
