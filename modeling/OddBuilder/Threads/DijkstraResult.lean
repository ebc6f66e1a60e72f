import Mathlib.Algebra.BigOperators.Fin
import Mathlib.Algebra.Order.BigOperators.Group.Finset
import OddBuilder.Threads.DijkstraConvergence

/-!
# The result of parallelDijkstra

Every run ends, and it ends with the shortest distances and with links that lead
back to the start.
-/

namespace JobThreads

open Interleaving Relaxation DijkstraThread DijkstraCall Multiset

variable {call : DijkstraCall} {s s' : DijkstraState} {t : DijkstraThread}
  {born others threads : Multiset DijkstraThread}
variable {path : List Nat} {v length w : Nat} {res : DijkstraResult}

theorem foldl_set_range {α : Type} (f : Nat → α) (list : List α) (m : Nat) (hm : m ≤ list.length) :
    (List.range m).foldl (fun list i => list.set i (f i)) list =
      (List.range m).map f ++ list.drop m := by
  induction m with
  | zero => simp
  | succ m ih =>
    have hlength : ((List.range m).map f).length = m := by simp
    rw [List.range_succ, List.foldl_append, ih (by omega), List.foldl_cons, List.set_append_right _ _ (by omega), hlength, Nat.sub_self, List.map_append,
      List.append_assoc]
    rw [List.drop_eq_getElem_cons (by omega)]
    rfl

theorem tasks_flatten (call : DijkstraCall) (n : Nat) : (call.tasks n).flatten = List.range n :=
  parallelFor_flatten _ _ _

theorem initNodes_eq (call : DijkstraCall) : call.initNodes =
    (List.replicate call.adj.length call.initVal).set call.startVertex ⟨0, none⟩ := by
  have hall := foldl_set_range (fun _ => call.initVal)
    (List.replicate call.adj.length (⟨0, some 0⟩ : DijkstraNode)) call.adj.length (by simp)
  rw [initNodes, tasks_flatten, hall, List.drop_eq_nil_of_le (by simp), List.append_nil,
    List.map_const', List.length_range]

theorem result_eq (call : DijkstraCall) (nodes : List DijkstraNode) :
    call.result nodes =
      ⟨(List.range call.adj.length).map fun i => (nodes.getD i call.initVal).dist,
        (List.range call.adj.length).map fun i => (nodes.getD i call.initVal).parent⟩ := by
  have hsplit : ∀ (indexes : List Nat) (distance : List Nat) (parent : List (Option Nat)),
      indexes.foldl (fun (res : DijkstraResult) i =>
        ⟨res.distance.set i (nodes.getD i call.initVal).dist,
          res.parent.set i (nodes.getD i call.initVal).parent⟩) ⟨distance, parent⟩ =
      ⟨indexes.foldl (fun list i => list.set i (nodes.getD i call.initVal).dist) distance,
        indexes.foldl (fun list i => list.set i (nodes.getD i call.initVal).parent) parent⟩ := by
    intro indexes
    induction indexes with
    | nil => exact fun _ _ => rfl
    | cons i indexes ih => exact fun _ _ => ih _ _
  have hdistance := foldl_set_range (fun i => (nodes.getD i call.initVal).dist)
    (List.replicate call.adj.length 0) call.adj.length (by simp)
  have hparent := foldl_set_range (fun i => (nodes.getD i call.initVal).parent)
    (List.replicate call.adj.length (some 0)) call.adj.length (by simp)
  rw [List.drop_eq_nil_of_le (by simp), List.append_nil] at hdistance hparent
  simp only [result, tasks_flatten, hsplit, hdistance, hparent]

theorem reconstructLoop_eq {parent : List (Option Nat)}
    (h : ParentPath (fun v => parent.getD v none) v path) (room : Nat) (hroom : path.length ≤ room)
    (done : List Nat) : reconstructLoop parent room (some v) done = path.reverse ++ done := by
  induction h generalizing room done with
  | @root v hparent =>
    cases room with
    | zero => simp at hroom
    | succ room =>
      rw [reconstructLoop, hparent]
      cases room <;> rfl
  | @link v u rest hparent _ ih =>
    cases room with
    | zero => simp at hroom
    | succ room =>
      rw [reconstructLoop, hparent, ih room (Nat.le_of_succ_le_succ hroom)]
      simp

/-- A path without repetition fits into the room. -/
theorem nodup_length_le {n : Nat} (hnodup : path.Nodup) (hlt : ∀ x ∈ path, x < n) :
    path.length ≤ n := by
  have hsubset : path ⊆ List.range n := fun x hx => List.mem_range.2 (hlt x hx)
  have hle := (hnodup.subperm hsubset).length_le
  rwa [List.length_range] at hle

theorem reconstructPath_eq {inf : Nat} (hv : v < res.parent.length)
    (hreached : res.distance.getD v 0 ≠ inf)
    (hpath : ParentPath (fun v => res.parent.getD v none) v path)
    (hroom : path.length ≤ res.parent.length) : reconstructPath inf res v = path.reverse := by
  rw [reconstructPath, if_neg (Nat.not_le.2 hv), if_neg (fun h => hreached h.2),
    reconstructLoop_eq hpath _ hroom, List.append_nil]

theorem DijkstraCall.WellFormed.walk_bounded (hcall : call.WellFormed)
    (hvertex : call.startVertex < call.adj.length) (h : call.Walk path length) :
    ∀ x ∈ path, x < call.adj.length := by
  induction h with
  | start =>
    intro x hx
    rw [List.mem_singleton.1 hx]
    exact hvertex
  | step _ hedge ih =>
    intro x hx
    rcases List.mem_cons.1 hx with rfl | hx
    · exact hcall.bounded _ _ _ hedge
    · exact ih x hx

/-- A caller that has returned read the nodes, and every buffer was empty. -/
def Answers (call : DijkstraCall) (s : DijkstraState) (threads : Multiset DijkstraThread) : Prop :=
  ∀ res, .returned res ∈ threads →
    res = call.result s.nodes ∧ call.nextWave s = [] ∧ call.nextHeavy s = []

theorem Answers.step (hphase : Phase s (t ::ₘ others)) (hnext : DijkstraStep call s t s' born) :
    Answers call s' (born + others) := by
  intro res hres
  rcases mem_add.1 hres with hborn | hothers
  · cases hnext with
    | finish _ next limit hlatch hlight hnext =>
      cases mem_singleton.1 hborn
      exact ⟨rfl, hlight, (List.append_eq_nil_iff.1 hnext).2⟩
    | spawn _ current next limit =>
      rcases mem_cons.1 hborn with heq | hborn
      · cases heq
      · obtain ⟨indexes, -, heq⟩ := List.mem_map.1 (mem_coe.1 hborn)
        cases heq
    | countDown => exact absurd hborn (notMem_zero _)
    | _ => cases mem_singleton.1 hborn
  · cases hphase.others_waiting _ hothers rfl

/-- The distances of a search that has returned are shortest. -/
theorem Searches.exact (hcall : call.WellFormed) (hvertex : call.startVertex < call.adj.length)
    (h : Searches call s {.returned res}) (hanswers : Answers call s {.returned res}) :
    call.Exact res := by
  obtain ⟨rfl, hlight, hheavy⟩ := hanswers res (mem_singleton_self _)
  obtain ⟨hmarked, -, -, -, hconverging⟩ := h
  have hpos : 0 < call.inf := by
    have hle := hcall.representable _ _ .start List.nodup_nil
    have hdelta := hcall.delta_pos
    omega
  have hrelaxed : Relaxed call.Edge call.inf (call.dist s) := by
    intro u v w hedge hu
    rcases hconverging u v w hedge hu with hle | hscheduled | ⟨t, ht, hcarries⟩
    · exact hle
    · rw [scheduled_singleton, hlight, hheavy] at hscheduled
      simp [visits] at hscheduled
    · rw [mem_singleton.1 ht] at hcarries
      exact hcarries.elim
  have hbelow : ∀ u v w, call.Edge u v w → call.dist s u < call.inf →
      call.dist s u + w < call.inf :=
    fun u v w hedge hu => (hcall.add_eq (hmarked.attained u hu) hedge).2
  have hwalk : ∀ v rest length, call.Walk (v :: rest) length →
      call.dist s v ≤ length ∧ call.dist s v < call.inf :=
    fun v rest length h => hrelaxed.le_walk hmarked.start hpos hbelow h v rest rfl
  have hattained : ∀ v, call.dist s v < call.inf →
      ∃ rest, call.Walk (v :: rest) (call.dist s v) := by
    intro v hv
    obtain ⟨rest, -, hjustified⟩ := hmarked.attained v hv
    exact ⟨rest, hjustified.walk⟩
  have hdistance : ∀ v, v < call.adj.length →
      (call.result s.nodes).distance.getD v 0 = call.dist s v := by
    intro v hv
    rw [result_eq]
    simp [hv, DijkstraCall.dist, DijkstraCall.node]
  constructor
  · rw [result_eq]
    simp
  · rw [result_eq]
    simp
  · intro v hv
    rw [hdistance v hv]
    constructor
    · rintro hinf ⟨rest, length, hreach⟩
      have hlt := (hwalk v rest length hreach).2
      omega
    · intro hnone
      by_contra hne
      have hlt : call.dist s v < call.inf := lt_of_le_of_ne (hmarked.limited v) hne
      obtain ⟨rest, hreach⟩ := hattained v hlt
      exact hnone ⟨rest, _, hreach⟩
  · rintro v hv ⟨rest, length, hreach⟩
    rw [hdistance v hv]
    refine ⟨hattained v (hwalk v rest length hreach).2, ?_⟩
    rintro other ⟨rest', hother⟩
    exact (hwalk v rest' other hother).1
  · rintro v hv ⟨rest, length, hreach⟩
    rw [hdistance v hv]
    have hlt := (hwalk v rest length hreach).2
    obtain ⟨rank, hlinked⟩ := hmarked.linked
    obtain ⟨path, hparents, hpath, hnodup, -⟩ :=
      exists_parentPath hrelaxed hmarked.start hmarked.root hlinked v hlt
    have hroom := nodup_length_le hnodup (hcall.walk_bounded hvertex hpath)
    have hparent : (fun v => (call.result s.nodes).parent.getD v none) = call.parent s := by
      funext x
      rw [result_eq]
      by_cases hx : x < call.adj.length
      · simp [hx, DijkstraCall.parent, DijkstraCall.node]
      · have hnodes : s.nodes.length ≤ x := by
          rw [hmarked.sized]
          exact Nat.le_of_not_lt hx
        simp [hx, DijkstraCall.parent, DijkstraCall.node, hnodes, initVal]
    have hlength : (call.result s.nodes).parent.length = call.adj.length := by
      rw [result_eq]
      simp
    refine ⟨path, ?_, hpath⟩
    have hback : reconstructPath call.inf (call.result s.nodes) v = (v :: path).reverse := by
      apply reconstructPath_eq
      · rw [hlength]
        exact hv
      · rw [hdistance v hv]
        exact hlt.ne
      · rw [hparent]
        exact hparents
      · rw [hlength]
        exact hroom
    rw [hback, List.reverse_reverse]

theorem searches_start (hcall : call.WellFormed) (hvertex : call.startVertex < call.adj.length) :
    Searches call ⟨call.initNodes, fun _ => [], fun _ => [], 0⟩
      {.wave [call.startVertex] [] call.delta} := by
  have hnode : call.node ⟨call.initNodes, fun _ => [], fun _ => [], 0⟩ =
      Function.update (fun _ => call.initVal) call.startVertex ⟨0, none⟩ := by
    funext x
    simp only [DijkstraCall.node, initNodes_eq]
    by_cases hx : x = call.startVertex
    · subst hx
      simp [hvertex]
    · rw [Function.update_of_ne hx, List.getD_eq_getElem?_getD, List.getElem?_set_ne (Ne.symm hx),
        List.getElem?_replicate]
      split <;> rfl
  have hstart : call.dist ⟨call.initNodes, fun _ => [], fun _ => [], 0⟩ call.startVertex = 0 := by
    rw [DijkstraCall.dist, hnode, Function.update_self]
  have hfar : ∀ v, v ≠ call.startVertex →
      call.dist ⟨call.initNodes, fun _ => [], fun _ => [], 0⟩ v = call.inf := by
    intro v hv
    rw [DijkstraCall.dist, hnode, Function.update_of_ne hv]
    rfl
  have hpos : 0 < call.inf := by
    have hle := hcall.representable _ _ .start List.nodup_nil
    have hdelta := hcall.delta_pos
    omega
  have honly : ∀ v, call.dist ⟨call.initNodes, fun _ => [], fun _ => [], 0⟩ v < call.inf →
      v = call.startVertex := by
    intro v hv
    by_contra hne
    rw [hfar v hne] at hv
    exact lt_irrefl _ hv
  refine ⟨⟨?_, hstart, ?_, ?_, ?_, ?_⟩, ?_, ?_, ?_, ?_⟩
  · simp [initNodes_eq]
  · rw [DijkstraCall.parent, hnode, Function.update_self]
  · intro v hv
    rw [honly v hv, hstart]
    exact ⟨[], List.nodup_singleton _, .start hstart⟩
  · exact ⟨fun _ => 0, fun v hne hv => absurd (honly v hv) hne⟩
  · intro v
    by_cases hv : v = call.startVertex
    · rw [hv, hstart]
      exact Nat.zero_le _
    · exact (hfar v hv).le
  · intro t ht
    rw [mem_singleton.1 ht]
    rintro x (hx) <;> simp [nextWave, nextHeavy] at hx
  · exact phase_singleton rfl rfl
  · intro x hx
    rw [scheduled_singleton] at hx
    have hx' : x = call.startVertex := by
      simpa [nextWave, nextHeavy, visits] using hx
    rw [hx', hstart]
    exact hpos
  · intro x v w _ hx
    rw [honly x hx]
    exact Or.inr (Or.inl (scheduled_singleton.2 (Or.inr (Or.inr (by simp [visits])))))

/-- What the visit of a vertex costs at most, apart from what its exchanges cause. -/
def bodyCost (call : DijkstraCall) (v : Nat) : Nat := 3 * (call.neighbors v).length + 4

/-- The cost of a vertex in a bucket, with its share of the wave. -/
def bucketCost (call : DijkstraCall) (bucket : List Nat) : Nat :=
  (bucket.map fun v => bodyCost call v + 3).sum

def indexCost (call : DijkstraCall) (current indexes : List Nat) : Nat :=
  (indexes.map fun idx => bodyCost call (current.getD idx 0)).sum

def RelaxJob.cost (call : DijkstraCall) (job : RelaxJob) : Nat :=
  indexCost call job.current job.rest + bucketCost call job.localLight +
    bucketCost call job.localHeavy

/-- The steps a thread will take, if no exchange succeeds. -/
def DijkstraThread.cost (call : DijkstraCall) (s : DijkstraState) : DijkstraThread → Nat
  | .wave current next _ => bucketCost call current + bucketCost call next
  | .waiting next _ =>
    1 + bucketCost call next + bucketCost call (call.nextWave s) +
      bucketCost call (call.nextHeavy s)
  | .returned _ => 0
  | .worker current _ indexes => 1 + indexCost call current indexes
  | .relaxing job edges => 4 + job.cost call + 3 * edges.length
  | .trying job v _ old edges =>
    4 + job.cost call + 3 * edges.length + if call.node s v = old then 1 else 2
  | .publishing job => 3 + job.cost call
  | .publishingHeavy job =>
    2 + indexCost call job.current job.rest + bucketCost call job.localHeavy

/-- The distances, and behind them the steps to come. -/
def dijkstraMeasure (call : DijkstraCall) (s : DijkstraState)
    (threads : Multiset DijkstraThread) : Nat × Nat :=
  (∑ v ∈ Finset.range call.adj.length, call.dist s v,
    (threads.map (DijkstraThread.cost call s)).sum)

theorem bucketCost_append (first second : List Nat) :
    bucketCost call (first ++ second) = bucketCost call first + bucketCost call second := by
  simp [bucketCost]

theorem bucketCost_flatMap (buffer : Nat → List Nat) (n : Nat) :
    bucketCost call ((List.range n).flatMap buffer) =
      ∑ i ∈ Finset.range n, bucketCost call (buffer i) := by
  induction n with
  | zero => simp [bucketCost]
  | succ n ih =>
    rw [List.range_succ, List.flatMap_append, bucketCost_append, ih, Finset.sum_range_succ,
      List.flatMap_singleton]

/-- What a buffer gets is what its shard costs more. -/
theorem bucketCost_publish (buffer : Nat → List Nat) {n shard : Nat} (hshard : shard < n)
    (more : List Nat) :
    bucketCost call ((List.range n).flatMap
      (Function.update buffer shard (buffer shard ++ more))) =
      bucketCost call ((List.range n).flatMap buffer) + bucketCost call more := by
  have hmem : shard ∈ Finset.range n := Finset.mem_range.2 hshard
  rw [bucketCost_flatMap, bucketCost_flatMap, ← Finset.add_sum_erase _ _ hmem,
    ← Finset.add_sum_erase _ (fun i => bucketCost call (buffer i)) hmem, Function.update_self,
    bucketCost_append]
  have hrest : ∀ i ∈ (Finset.range n).erase shard,
      bucketCost call (Function.update buffer shard (buffer shard ++ more) i) =
        bucketCost call (buffer i) := by
    intro i hi
    rw [Function.update_of_ne (Finset.ne_of_mem_erase hi)]
  rw [Finset.sum_congr rfl hrest]
  omega

/-- All tasks together cost what the indexes of the bucket cost, and one step each. -/
theorem tasks_cost (call : DijkstraCall) (s : DijkstraState) (current : List Nat) (limit : Nat) :
    ((Multiset.ofList ((call.tasks current.length).map (.worker current limit))).map
      (DijkstraThread.cost call s)).sum ≤
      current.length + (current.map (bodyCost call)).sum := by
  have hlength : (call.tasks current.length).length ≤ current.length :=
    parallelFor_length_le _ _ _
  have hsum : ∀ tasks : List (List Nat),
      ((tasks.map (.worker current limit)).map (DijkstraThread.cost call s)).sum =
        tasks.length + indexCost call current tasks.flatten := by
    intro tasks
    induction tasks with
    | nil => rfl
    | cons indexes tasks ih =>
      simp only [List.map_cons, List.sum_cons, ih, DijkstraThread.cost, List.length_cons,
        List.flatten_cons, indexCost, List.map_append, List.sum_append]
      omega
  have hcurrent : indexCost call current (List.range current.length) =
      (current.map (bodyCost call)).sum := by
    rw [indexCost]
    congr 1
    apply List.ext_getElem
    · simp
    · intro i hi hi'
      simp only [List.length_map, List.length_range] at hi
      simp [hi]
  rw [map_coe, sum_coe, hsum, tasks_flatten]
  omega

theorem bucketCost_eq (current : List Nat) :
    bucketCost call current = (current.map (bodyCost call)).sum + 3 * current.length := by
  induction current with
  | nil => rfl
  | cons v current ih =>
    simp only [bucketCost, List.map_cons, List.sum_cons, List.length_cons] at ih ⊢
    omega

/-- When a task gives a buffer on, only the waiting caller has more to do. -/
theorem DijkstraThread.cost_le (hnodes : s'.nodes = s.nodes) {more : Nat}
    (hbuffers : bucketCost call (call.nextWave s') + bucketCost call (call.nextHeavy s') =
      bucketCost call (call.nextWave s) + bucketCost call (call.nextHeavy s) + more)
    (others : Multiset DijkstraThread) :
    (others.map (DijkstraThread.cost call s')).sum ≤
      (others.map (DijkstraThread.cost call s)).sum + count isWaiting others * more := by
  induction others using Multiset.induction_on with
  | empty => simp
  | cons u others ih =>
    rw [map_cons, map_cons, sum_cons, sum_cons, count_cons]
    have hu : u.cost call s' ≤ u.cost call s + if isWaiting u then more else 0 := by
      cases u with
      | waiting next limit =>
        simp only [DijkstraThread.cost, isWaiting, if_true]
        omega
      | _ =>
        simp only [DijkstraThread.cost, DijkstraCall.node, hnodes]
        exact Nat.le_add_right _ _
    split at hu
    · next hwaiting =>
      rw [if_pos hwaiting, Nat.add_mul]
      omega
    · next hwaiting =>
      rw [if_neg hwaiting, Nat.add_zero]
      omega

/-- A wave has something to visit. -/
def Fed (threads : Multiset DijkstraThread) : Prop :=
  ∀ current next limit, .wave current next limit ∈ threads → current ≠ []

theorem Fed.step (h : Fed (t ::ₘ others)) (hnext : DijkstraStep call s t s' born) :
    Fed (born + others) := by
  intro current next limit hwave
  rcases mem_add.1 hwave with hborn | hothers
  · cases hnext with
    | again _ next limit hlatch hlight =>
      cases mem_singleton.1 hborn
      exact hlight
    | advance _ next limit hlatch hlight hnext =>
      cases mem_singleton.1 hborn
      exact hnext
    | spawn _ current next limit =>
      rcases mem_cons.1 hborn with heq | hborn
      · cases heq
      · obtain ⟨indexes, -, heq⟩ := List.mem_map.1 (mem_coe.1 hborn)
        cases heq
    | countDown => exact absurd hborn (notMem_zero _)
    | _ => cases mem_singleton.1 hborn
  · exact h current next limit (mem_cons_of_mem hothers)

/-- An exchange lowers the sum of the distances. -/
theorem Falls.sum_lt (hcall : call.WellFormed) {job : RelaxJob} (h : Falls call s s' job v w) :
    ∑ v ∈ Finset.range call.adj.length, call.dist s' v <
      ∑ v ∈ Finset.range call.adj.length, call.dist s v := by
  apply Finset.sum_lt_sum
  · exact fun x _ => h.le x
  · refine ⟨v, Finset.mem_range.2 (hcall.bounded _ _ _ h.edge), ?_⟩
    rw [h.dist, Function.update_self]
    exact h.less

theorem Falls.nodes_ne {job : RelaxJob} (h : Falls call s s' job v w) : s'.nodes ≠ s.nodes := by
  intro hnodes
  have hv := congrFun h.dist v
  rw [dist_eq_of_nodes call hnodes, Function.update_self] at hv
  exact absurd h.less (by omega)

/-- Without an exchange the steps to come get fewer. -/
theorem DijkstraStep.cost_lt (hcall : call.WellFormed) (hmarked : Marked call s)
    (hknows : Knows call s t) (hphase : Phase s (t ::ₘ others)) (hfed : Fed (t ::ₘ others))
    (hnodes : s'.nodes = s.nodes) (h : DijkstraStep call s t s' born) :
    ((born + others).map (DijkstraThread.cost call s')).sum <
      ((t ::ₘ others).map (DijkstraThread.cost call s)).sum := by
  have hwaiting : count isWaiting others ≤ 1 := by
    have hle := count_le_count (fun u => isCaller_of_isWaiting (t := u)) others
    have hcallers := hphase.callers
    rw [count_cons] at hcallers
    omega
  have hgiven : ∀ more, bucketCost call (call.nextWave s') + bucketCost call (call.nextHeavy s') =
      bucketCost call (call.nextWave s) + bucketCost call (call.nextHeavy s) + more →
      (others.map (DijkstraThread.cost call s')).sum ≤
        (others.map (DijkstraThread.cost call s)).sum + more := by
    intro more hmore
    have hle := DijkstraThread.cost_le hnodes hmore others
    have hone := Nat.mul_le_mul_right more hwaiting
    omega
  rw [map_add, sum_add, map_cons, sum_cons]
  cases h with
  | spawn _ current next limit =>
    have hcard := hphase.quiet ⟨_, mem_cons_self _ _, rfl, rfl⟩
    rw [card_cons] at hcard
    rw [card_eq_zero.1 (Nat.succ.inj hcard), map_cons, sum_cons]
    have hcurrent := hfed current next limit (mem_cons_self _ _)
    have hpos := List.length_pos_of_ne_nil hcurrent
    have htasks := tasks_cost call ⟨s.nodes, fun _ => [], fun _ => [],
      (call.tasks current.length).length⟩ current limit
    have hempty : bucketCost call ((List.range call.numShards).flatMap fun _ => []) = 0 := by
      rw [bucketCost_flatMap]
      exact Finset.sum_eq_zero fun _ _ => rfl
    simp only [DijkstraThread.cost, bucketCost_eq current, nextWave, nextHeavy, map_zero] at htasks ⊢
    omega
  | exchange _ job v newDist old edges hold =>
    have hset : ({ s with nodes := s.nodes.set v ⟨newDist, some job.u⟩ } : DijkstraState).nodes =
      s.nodes.set v ⟨newDist, some job.u⟩ := rfl
    obtain ⟨w, rfl, hfalls⟩ := hmarked.falls hcall hknows hold hset
    exact absurd hnodes hfalls.nodes_ne
  | publish _ job =>
    have hothers := hgiven (bucketCost call job.localLight) (by
      simp only [nextWave, nextHeavy, bucketCost_publish s.light hknows]
      omega)
    simp only [map_singleton, sum_singleton, DijkstraThread.cost, RelaxJob.cost]
    omega
  | publishHeavy _ job =>
    have hothers := hgiven (bucketCost call job.localHeavy) (by
      simp only [nextWave, nextHeavy, bucketCost_publish s.heavy hknows]
      omega)
    simp only [map_singleton, sum_singleton, DijkstraThread.cost]
    omega
  | again _ next limit hlatch hlight =>
    simp only [map_singleton, sum_singleton, DijkstraThread.cost, bucketCost_append]
    omega
  | advance _ next limit hlatch hlight hnext =>
    simp only [map_singleton, sum_singleton, DijkstraThread.cost, bucketCost_append, hlight]
    omega
  | finish _ next limit hlatch hlight hnext =>
    simp only [map_singleton, sum_singleton, DijkstraThread.cost]
    omega
  | load _ current limit idx rest =>
    simp only [map_singleton, sum_singleton, DijkstraThread.cost, beginJob,
      RelaxJob.cost, indexCost, List.map_cons, List.sum_cons, bodyCost, bucketCost, List.map_nil,
      List.sum_nil]
    omega
  | examine _ job v weight edges hlt =>
    simp only [map_singleton, sum_singleton, DijkstraThread.cost, List.length_cons, if_true]
    omega
  | pass _ job v weight edges hle =>
    simp only [map_singleton, sum_singleton, DijkstraThread.cost, List.length_cons]
    omega
  | retry _ job v newDist old edges hne hlt =>
    simp only [map_singleton, sum_singleton, DijkstraThread.cost, if_true, if_neg hne]
    omega
  | giveUp _ job v newDist old edges hne hle =>
    simp only [map_singleton, sum_singleton, DijkstraThread.cost, if_neg hne]
    omega
  | relaxed _ job =>
    simp only [map_singleton, sum_singleton, DijkstraThread.cost]
    omega
  | countDown _ current limit =>
    have hothers := hgiven 0 rfl
    simp only [map_zero, sum_zero, DijkstraThread.cost]
    omega

theorem DijkstraStep.lowers (hcall : call.WellFormed) (hsearches : Searches call s (t ::ₘ others))
    (hfed : Fed (t ::ₘ others)) (h : DijkstraStep call s t s' born) :
    Prod.Lex (· < ·) (· < ·) (dijkstraMeasure call s' (born + others))
      (dijkstraMeasure call s (t ::ₘ others)) := by
  have hknows := hsearches.knows t (mem_cons_self _ _)
  rcases h.falls_or hcall hsearches.marked hknows with hnodes | ⟨job, v, w, edges, -, -, hfalls⟩
  · have hcost := h.cost_lt hcall hsearches.marked hknows hsearches.phase hfed hnodes
    rw [dijkstraMeasure, dist_eq_of_nodes call hnodes]
    exact Prod.Lex.right _ hcost
  · exact Prod.Lex.left _ _ (hfalls.sum_lt hcall)

/-- A search that has not returned can go on. -/
theorem Searches.progress (h : Searches call s threads)
    (hreturned : ∀ res, .returned res ∉ threads) :
    ∃ t ∈ threads, ∃ s' born, DijkstraStep call s t s' born := by
  by_cases htask : ∃ t ∈ threads, t.isCaller = false
  · obtain ⟨t, ht, hcaller⟩ := htask
    refine ⟨t, ht, ?_⟩
    cases t with
    | worker current limit indexes =>
      cases indexes with
      | nil => exact ⟨_, _, .countDown ..⟩
      | cons idx rest => exact ⟨_, _, .load ..⟩
    | relaxing job edges =>
      cases edges with
      | nil => exact ⟨_, _, .relaxed ..⟩
      | cons edge edges =>
        obtain ⟨v, weight⟩ := edge
        rcases lt_or_ge (call.add job.dist weight) (call.node s v).dist with hlt | hge
        · exact ⟨_, _, .examine _ _ _ _ _ hlt⟩
        · exact ⟨_, _, .pass _ _ _ _ _ hge⟩
    | trying job v newDist old edges =>
      by_cases hold : call.node s v = old
      · exact ⟨_, _, .exchange _ _ _ _ _ _ hold⟩
      · rcases lt_or_ge newDist (call.node s v).dist with hlt | hge
        · exact ⟨_, _, .retry _ _ _ _ _ _ hold hlt⟩
        · exact ⟨_, _, .giveUp _ _ _ _ _ _ hold hge⟩
    | publishing job => exact ⟨_, _, .publish ..⟩
    | publishingHeavy job => exact ⟨_, _, .publishHeavy ..⟩
    | wave | waiting | returned => cases hcaller
  · have hcallers : threads.card = 1 := by
      rw [← h.phase.callers]
      refine (countP_eq_card.2 ?_).symm
      intro t ht
      rw [← Bool.not_eq_false]
      exact fun hcaller => htask ⟨t, ht, hcaller⟩
    obtain ⟨t, rfl⟩ := card_eq_one.1 hcallers
    refine ⟨t, mem_singleton_self t, ?_⟩
    cases t with
    | wave current next limit => exact ⟨_, _, .spawn ..⟩
    | waiting next limit =>
      have hlatch : s.latch = 0 := by
        have hcard := h.phase.latched ⟨_, mem_singleton_self _, rfl⟩
        omega
      by_cases hlight : call.nextWave s = []
      · by_cases hnext : next ++ call.nextHeavy s = []
        · exact ⟨_, _, .finish _ _ _ hlatch hlight hnext⟩
        · exact ⟨_, _, .advance _ _ _ hlatch hlight hnext⟩
      · exact ⟨_, _, .again _ _ _ hlatch hlight⟩
    | returned res => exact absurd (mem_singleton_self _) (hreturned res)
    | _ => exact absurd ⟨_, mem_singleton_self _, rfl⟩ htask

/-- What holds in every state of a search. -/
structure Running (call : DijkstraCall) (s : DijkstraState) (threads : Multiset DijkstraThread) :
    Prop where
  searches : Searches call s threads
  fed : Fed threads
  answers : Answers call s threads

theorem running_start (hcall : call.WellFormed) (hvertex : call.startVertex < call.adj.length) :
    Running call ⟨call.initNodes, fun _ => [], fun _ => [], 0⟩
      {.wave [call.startVertex] [] call.delta} := by
  refine ⟨searches_start hcall hvertex, ?_, ?_⟩
  · intro current next limit hwave
    cases mem_singleton.1 hwave
    exact List.cons_ne_nil _ _
  · intro res hres
    cases mem_singleton.1 hres

theorem Running.step (hcall : call.WellFormed) (h : Running call s (t ::ₘ others))
    (hnext : DijkstraStep call s t s' born) : Running call s' (born + others) :=
  ⟨h.searches.step hcall hnext, h.fed.step hnext, Answers.step h.searches.phase hnext⟩

theorem not_step_returned {c : Config DijkstraState DijkstraThread} :
    ¬ Step (DijkstraStep call) ⟨s, {.returned res}⟩ c := by
  intro h
  generalize hstart : (⟨s, {.returned res}⟩ : Config DijkstraState DijkstraThread) = start at h
  cases h with
  | @turn _ _ t _ others _ hnext =>
    have ht : t ∈ ({.returned res} : Multiset DijkstraThread) := by
      change t ∈ Config.threads ⟨s, {.returned res}⟩
      rw [hstart]
      exact mem_cons_self _ _
    rw [mem_singleton.1 ht] at hnext
    cases hnext

theorem walk_outside (hvertex : call.adj.length ≤ call.startVertex) (h : call.Walk path length) :
    path = [call.startVertex] := by
  induction h with
  | start => rfl
  | step _ hedge ih =>
    cases ih
    simp [Edge, neighbors, hvertex] at hedge

/-- A start outside the graph reaches nothing. -/
theorem exact_outside (call : DijkstraCall) (hvertex : call.adj.length ≤ call.startVertex) :
    call.Exact ⟨List.replicate call.adj.length call.inf, List.replicate call.adj.length none⟩ := by
  have hnone : ∀ v, v < call.adj.length → ¬ ∃ rest length, call.Walk (v :: rest) length := by
    rintro v hv ⟨rest, length, hwalk⟩
    cases walk_outside hvertex hwalk
    omega
  constructor
  · exact List.length_replicate
  · exact List.length_replicate
  · intro v hv
    refine iff_of_true ?_ (hnone v hv)
    simp [hv]
  · intro v hv hwalk
    exact absurd hwalk (hnone v hv)
  · intro v hv hwalk
    exact absurd hwalk (hnone v hv)

/-- Every run ends, and where no thread can go on the caller has returned the shortest
distances and links of shortest paths. -/
theorem parallelDijkstra_exact (hcall : call.WellFormed) :
    Acc (fun c' c => Step (DijkstraStep call) c c') (dijkstraStart call) ∧
      ∀ c, Reachable (DijkstraStep call) (dijkstraStart call) c →
        (∀ c', ¬ Step (DijkstraStep call) c c') →
        ∃ res, c.threads = {.returned res} ∧ call.Exact res := by
  have hreturned : ∀ s res, call.Exact res → dijkstraStart call = ⟨s, {.returned res}⟩ →
      Acc (fun c' c => Step (DijkstraStep call) c c') (dijkstraStart call) ∧
        ∀ c, Reachable (DijkstraStep call) (dijkstraStart call) c →
          (∀ c', ¬ Step (DijkstraStep call) c c') →
          ∃ res, c.threads = {.returned res} ∧ call.Exact res := by
    intro s res hexact hstart
    rw [hstart]
    refine ⟨⟨_, fun c' h => absurd h not_step_returned⟩, ?_⟩
    intro c hc _
    rcases Relation.ReflTransGen.cases_head hc with rfl | ⟨c', hstep, -⟩
    · exact ⟨res, rfl, hexact⟩
    · exact absurd hstep not_step_returned
  by_cases hempty : call.adj.length = 0
  · have houtside := exact_outside call (by omega)
    rw [hempty] at houtside
    exact hreturned ⟨[], fun _ => [], fun _ => [], 0⟩ _ houtside (by simp [dijkstraStart, hempty])
  by_cases hvertex : call.adj.length ≤ call.startVertex
  · exact hreturned ⟨[], fun _ => [], fun _ => [], 0⟩ _ (exact_outside call hvertex)
      (by simp [dijkstraStart, hempty, hvertex])
  have hstart : dijkstraStart call = ⟨⟨call.initNodes, fun _ => [], fun _ => [], 0⟩,
      {.wave [call.startVertex] [] call.delta}⟩ := by
    simp [dijkstraStart, hempty, hvertex]
  have hrunning := running_start hcall (Nat.lt_of_not_le hvertex)
  rw [hstart]
  constructor
  · refine terminates (Prod.lex Nat.lt_wfRel Nat.lt_wfRel).wf (dijkstraMeasure call)
      (Running call) ?_ hrunning
    intro s t s' born others h hnext
    exact ⟨h.step hcall hnext, hnext.lowers hcall h.searches h.fed⟩
  · intro c hc hstuck
    have hinv : Running call c.shared c.threads :=
      hc.invariant hrunning fun _ _ _ _ _ h hnext => h.step hcall hnext
    have hreturn : ∃ res, .returned res ∈ c.threads := by
      by_contra hnone
      obtain ⟨t, ht, s', born, hnext⟩ :=
        hinv.searches.progress fun res hres => hnone ⟨res, hres⟩
      obtain ⟨c', hstep⟩ := exists_step ht hnext
      exact hstuck c' hstep
    obtain ⟨res, hres⟩ := hreturn
    have hthreads : c.threads = {.returned res} := by
      obtain ⟨t, ht⟩ := card_eq_one.1 (hinv.searches.phase.quiet ⟨_, hres, rfl, rfl⟩)
      rw [ht] at hres ⊢
      rw [mem_singleton.1 hres]
    refine ⟨res, hthreads, ?_⟩
    rw [hthreads] at hinv
    exact hinv.searches.exact hcall (Nat.lt_of_not_le hvertex) hinv.answers

/-- Two vertices, an edge between them and a loop without length. -/
def looped : DijkstraCall := ⟨[[(1, 2)], [(1, 0)]], 255, 0, 3, 4, false⟩

theorem looped_edge {u : Nat} (h : looped.Edge u v w) :
    (u = 0 ∧ v = 1 ∧ w = 2) ∨ (u = 1 ∧ v = 1 ∧ w = 0) := by
  match u with
  | 0 => simpa [Edge, neighbors, looped] using h
  | 1 => simpa [Edge, neighbors, looped] using h
  | u + 2 => simp [Edge, neighbors, looped] at h

theorem looped_walk (h : looped.Walk path length) :
    (path.head? = some 0 ∧ length = 0) ∨ (path.head? = some 1 ∧ length = 2) := by
  induction h with
  | start => exact Or.inl ⟨rfl, rfl⟩
  | step _ hedge ih =>
    right
    rcases looped_edge hedge with ⟨rfl, rfl, rfl⟩ <;> simp_all

theorem looped_wellFormed : looped.WellFormed := by
  constructor
  · intro u v w hedge
    rcases looped_edge hedge with ⟨-, rfl, -⟩ | ⟨-, rfl, -⟩ <;> decide
  · decide
  · intro path length hwalk _
    rcases looped_walk hwalk with ⟨-, rfl⟩ | ⟨-, rfl⟩ <;> decide

theorem looped_exact :
    Acc (fun c' c => Step (DijkstraStep looped) c c') (dijkstraStart looped) ∧
      ∀ c, Reachable (DijkstraStep looped) (dijkstraStart looped) c →
        (∀ c', ¬ Step (DijkstraStep looped) c c') →
        ∃ res, c.threads = {.returned res} ∧ looped.Exact res :=
  parallelDijkstra_exact looped_wellFormed

end JobThreads
