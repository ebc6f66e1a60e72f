import Mathlib.Algebra.Order.Group.Nat
import Mathlib.Data.Fintype.EquivFin
import Mathlib.Order.WellFounded
import OddBuilder.Threads.Graph

/-!
# The counters of JobThreadGraph

A counter holds, as an `int`, the number of edges that lead to its node from
nodes that have not released theirs. With fewer than `2 ^ 31` nodes and edges the
number is the counter.
-/

namespace JobThreads

open List Function

namespace JobThreadGraph

variable {Name : Type} [DecidableEq Name] {g : JobThreadGraph Name}
variable {u v : Name} {released : List Name} {depsLeft : Name → BitVec 32}

theorem depsList_of_mem {node : JobThreadNode Name} (hnode : node ∈ g.nodes) :
    g.depsList node.name = node.depsList := by
  have hfind : g.nodes.find? (·.name = node.name) = some node := by
    obtain ⟨front, back, hsplit⟩ := append_of_mem hnode
    rw [List.find?_eq_some_iff_append]
    refine ⟨by simp, front, back, hsplit, ?_⟩
    intro other hother
    have hnodup := g.nodup
    rw [hsplit, map_append] at hnodup
    have hne := disjoint_of_nodup_append hnodup (mem_map_of_mem hother)
    have hname : other.name ≠ node.name := fun heq => hne (heq ▸ mem_cons_self)
    simpa using hname
  rw [depsList, hfind]

theorem exists_node (hu : u ∈ g.names) : ∃ node ∈ g.nodes, node.name = u ∧
    g.depsList u = node.depsList := by
  obtain ⟨node, hnode, rfl⟩ := mem_map.1 hu
  exact ⟨node, hnode, rfl, depsList_of_mem hnode⟩

theorem depsList_of_notMem (hu : u ∉ g.names) : g.depsList u = [] := by
  have hfind : g.nodes.find? (·.name = u) = none := by
    rw [List.find?_eq_none]
    intro node hnode
    have hne : node.name ≠ u := by
      rintro rfl
      exact hu (mem_map_of_mem hnode)
    simpa using hne
  rw [depsList, hfind]

theorem Edge.source (h : g.Edge u v) : u ∈ g.names := by
  by_contra hu
  rw [Edge, depsList_of_notMem hu] at h
  simp at h

theorem Edge.target (h : g.Edge u v) : v ∈ g.names := by
  obtain ⟨node, hnode, -, hdeps⟩ := exists_node h.source
  rw [Edge, hdeps] at h
  exact g.known node hnode v h

/-- The check is exact. -/
theorem hasCycleLocked_iff : g.hasCycleLocked = true ↔ ∃ v, Relation.TransGen g.Edge v v := by
  have hfilter : (fun u => (g.depsList u).filter (· ∈ g.names)) = g.depsList := by
    funext u
    rw [filter_eq_self]
    intro v hv
    exact decide_eq_true (Edge.target hv)
  rw [hasCycleLocked, hfilter]
  refine CycleSearch.hasCycle_iff ?_ ?_
  · intro u _ v hv
    exact Edge.target hv
  · intro u hu
    exact depsList_of_notMem hu

/-- The edges to `v` from nodes that have not released theirs. -/
def remaining (g : JobThreadGraph Name) (released : List Name) (v : Name) : Nat :=
  ((g.nodes.filter (·.name ∉ released)).map (·.depsList.count v)).sum

def indegree (g : JobThreadGraph Name) (v : Name) : Nat := (g.nodes.map (·.depsList.count v)).sum

/-- The numbers of nodes and of edges to a node are values of an `int`. -/
structure FitsInt (g : JobThreadGraph Name) : Prop where
  nodes : g.nodes.length < 2 ^ 31
  edges : ∀ v, g.indegree v < 2 ^ 31

theorem remaining_nil (v : Name) : g.remaining [] v = g.indegree v := by
  simp [remaining, indegree]

theorem remaining_le_indegree (released : List Name) (v : Name) :
    g.remaining released v ≤ g.indegree v := by
  apply List.Sublist.sum_le_sum
  · exact filter_sublist.map _
  · intro k _
    exact Nat.zero_le k

/-- A node that releases its edges takes them off. -/
theorem remaining_cons (hu : u ∈ g.names) (hnew : u ∉ released) (v : Name) :
    g.remaining released v =
      (g.depsList u).count v + g.remaining (u :: released) v := by
  obtain ⟨node, hnode, rfl, hdeps⟩ := exists_node hu
  obtain ⟨front, back, hsplit⟩ := append_of_mem hnode
  have hnodup := g.nodup
  rw [hsplit, map_append, map_cons] at hnodup
  have hothers : ∀ other, other ∈ front ∨ other ∈ back → other.name ≠ node.name := by
    intro other hother heq
    rw [nodup_middle, nodup_cons] at hnodup
    refine hnodup.1 (heq ▸ ?_)
    rw [← map_append]
    exact mem_map_of_mem (mem_append.2 hother)
  have hsame : ∀ part : List (JobThreadNode Name), (∀ other ∈ part, other.name ≠ node.name) →
      part.filter (·.name ∉ node.name :: released) = part.filter (·.name ∉ released) := by
    intro part hpart
    apply filter_congr
    intro other hother
    simp [hpart other hother]
  rw [remaining, remaining, hsplit, hdeps]
  simp only [filter_append, filter_cons, hsame front fun o ho => hothers o (Or.inl ho),
    hsame back fun o ho => hothers o (Or.inr ho), hnew, mem_cons_self, not_false_eq_true,
    not_true_eq_false, decide_true, decide_false, if_true, Bool.false_eq_true, if_false,
    map_append, map_cons, sum_append, sum_cons]
  omega

theorem released_of_remaining (h : g.remaining released v = 0) (hedge : g.Edge u v) :
    u ∈ released := by
  by_contra hu
  have hsum := remaining_cons hedge.source hu v
  have hpos : 0 < (g.depsList u).count v := count_pos_iff.2 hedge
  omega

theorem tasks_toNat (h : g.FitsInt) : g.tasks.toNat = g.nodes.length := by
  have hlt := h.nodes
  rw [tasks, BitVec.toNat_ofNat, Nat.mod_eq_of_lt (by omega)]

theorem ofNat_eq_zero {k : Nat} (h : k < 2 ^ 32) : BitVec.ofNat 32 k = 0 ↔ k = 0 := by
  rw [← BitVec.toNat_inj, BitVec.toNat_ofNat, Nat.mod_eq_of_lt h]
  rfl

theorem countDeps_apply {deps : List Name} (hdeps : ∀ dep ∈ deps, dep ∈ g.names)
    (depsLeft : Name → BitVec 32) (v : Name) :
    g.countDeps deps depsLeft v = depsLeft v + BitVec.ofNat 32 (deps.count v) := by
  induction deps generalizing depsLeft with
  | nil => simp [countDeps]
  | cons dep rest ih =>
    have hdep : dep ∈ g.names := hdeps dep mem_cons_self
    have hrest := ih (fun w hw => hdeps w (mem_cons_of_mem _ hw))
      (Function.update depsLeft dep (depsLeft dep + 1))
    rw [countDeps, foldl_cons, if_pos hdep]
    refine hrest.trans ?_
    by_cases hv : v = dep
    · subst hv
      rw [update_self, count_cons_self, BitVec.add_assoc, Nat.add_comm, BitVec.ofNat_add]
      rfl
    · rw [update_of_ne hv, count_cons_of_ne (Ne.symm hv)]

theorem initDeps_apply (v : Name) : g.initDeps v = BitVec.ofNat 32 (g.indegree v) := by
  have hfold : ∀ (nodes : List (JobThreadNode Name)) (depsLeft : Name → BitVec 32),
      (∀ node ∈ nodes, ∀ dep ∈ node.depsList, dep ∈ g.names) →
      nodes.foldl (fun depsLeft node => g.countDeps node.depsList depsLeft) depsLeft v =
        depsLeft v + BitVec.ofNat 32 (nodes.map (·.depsList.count v)).sum := by
    intro nodes
    induction nodes with
    | nil =>
      intro depsLeft _
      simp
    | cons node rest ih =>
      intro depsLeft hknown
      rw [foldl_cons, ih _ fun other hother => hknown other (mem_cons_of_mem _ hother),
        countDeps_apply (hknown node mem_cons_self), map_cons, sum_cons,
        BitVec.ofNat_add, BitVec.add_assoc]
  rw [initDeps, hfold g.nodes _ g.known, indegree]
  simp

/-- What a counter is after a release, and when its node is ready: when the last edge that was
left is among those taken off. -/
theorem releaseDeps_spec {deps : List Name} (hdeps : ∀ dep ∈ deps, dep ∈ g.names) {k : Name → Nat}
    (hk : ∀ v ∈ g.names, depsLeft v = BitVec.ofNat 32 (k v)) (hlt : ∀ v, k v < 2 ^ 32)
    (hle : ∀ v, deps.count v ≤ k v) :
    (∀ v ∈ g.names, (g.releaseDeps deps depsLeft).1 v = BitVec.ofNat 32 (k v - deps.count v)) ∧
      ∀ v, (g.releaseDeps deps depsLeft).2.count v =
        if 0 < deps.count v ∧ k v = deps.count v then 1 else 0 := by
  induction deps generalizing depsLeft k with
  | nil => exact ⟨by simpa [releaseDeps] using hk, by simp [releaseDeps]⟩
  | cons dep rest ih =>
    have hdep : dep ∈ g.names := hdeps dep mem_cons_self
    have hpos : 0 < k dep := by
      have hcount := hle dep
      rw [count_cons_self] at hcount
      omega
    have hone : depsLeft dep - 1 = BitVec.ofNat 32 (k dep - 1) := by
      have hsucc : k dep = (k dep - 1) + 1 := by omega
      rw [hk dep hdep, hsucc, BitVec.ofNat_add]
      exact BitVec.add_sub_cancel _ _
    have hltDep := hlt dep
    have hkAfter : ∀ v ∈ g.names, Function.update depsLeft dep (depsLeft dep - 1) v =
        BitVec.ofNat 32 (Function.update k dep (k dep - 1) v) := by
      intro v hv
      by_cases hvd : v = dep
      · rw [hvd, update_self, update_self, hone]
      · rw [update_of_ne hvd, update_of_ne hvd, hk v hv]
    have hltAfter : ∀ v, Function.update k dep (k dep - 1) v < 2 ^ 32 := by
      intro v
      by_cases hvd : v = dep
      · rw [hvd, update_self]
        omega
      · rw [update_of_ne hvd]
        exact hlt v
    have hleAfter : ∀ v, rest.count v ≤ Function.update k dep (k dep - 1) v := by
      intro v
      have hlev := hle v
      by_cases hvd : v = dep
      · rw [hvd, count_cons_self] at hlev
        rw [hvd, update_self]
        omega
      · rw [count_cons_of_ne (Ne.symm hvd)] at hlev
        rw [update_of_ne hvd]
        exact hlev
    obtain ⟨hleft, hready⟩ := ih (fun w hw => hdeps w (mem_cons_of_mem _ hw))
      hkAfter hltAfter hleAfter
    rw [releaseDeps, if_pos hdep]
    constructor
    · intro v hv
      refine (hleft v hv).trans ?_
      by_cases hvd : v = dep
      · rw [hvd, update_self, count_cons_self, Nat.sub_sub, Nat.add_comm 1]
      · rw [update_of_ne hvd, count_cons_of_ne (Ne.symm hvd)]
    · intro v
      have hreadyv := hready v
      have hzero : depsLeft dep - 1 = 0 ↔ k dep - 1 = 0 := by
        rw [hone]
        exact ofNat_eq_zero (by omega)
      by_cases hvd : v = dep
      · subst hvd
        rw [update_self] at hreadyv
        have hlev := hle v
        rw [count_cons_self] at hlev ⊢
        by_cases hlast : k v - 1 = 0
        · -- the last edge is this one: the rest has none
          have hnone : rest.count v = 0 := by omega
          rw [if_neg (by omega)] at hreadyv
          rw [if_pos (by omega)]
          simp only [if_pos (hzero.2 hlast), count_cons_self, hreadyv]
        · simp only [if_neg (fun h => hlast (hzero.1 h)), hreadyv]
          by_cases hall : k v = rest.count v + 1
          · rw [if_pos (by omega), if_pos (by omega)]
          · rw [if_neg (by omega), if_neg (by omega)]
      · rw [update_of_ne hvd] at hreadyv
        rw [count_cons_of_ne (Ne.symm hvd)]
        by_cases hlast : depsLeft dep - 1 = 0
        · simp only [if_pos hlast, count_cons_of_ne (Ne.symm hvd), hreadyv]
        · simp only [if_neg hlast, hreadyv]

/-- One for a node whose edges are all released. -/
def ready (g : JobThreadGraph Name) (released : List Name) (v : Name) : ℤ :=
  if v ∈ g.names ∧ g.remaining released v = 0 then 1 else 0

theorem ready_le_one (released : List Name) (v : Name) : g.ready released v ≤ 1 := by
  rw [ready]
  split <;> decide

theorem ready_pos (h : 0 < g.ready released v) : v ∈ g.names ∧ g.remaining released v = 0 := by
  by_contra hnot
  rw [ready, if_neg hnot] at h
  exact absurd h (by decide)

/-- The counters say for every node how many of its edges are left. -/
def Counters (g : JobThreadGraph Name) (depsLeft : Name → BitVec 32) (released : List Name) : Prop :=
  ∀ v ∈ g.names, depsLeft v = BitVec.ofNat 32 (g.remaining released v)

theorem counters_initDeps : g.Counters g.initDeps [] := by
  intro v _
  rw [initDeps_apply, remaining_nil]

theorem remaining_lt (h : g.FitsInt) (released : List Name) (v : Name) :
    g.remaining released v < 2 ^ 32 := by
  have hle := g.remaining_le_indegree released v
  have hlt := h.edges v
  omega

theorem count_roots (hfits : g.FitsInt) (h : g.Counters depsLeft released) (v : Name) :
    ((g.roots depsLeft).count v : ℤ) = g.ready released v := by
  by_cases hv : v ∈ g.names ∧ g.remaining released v = 0
  · have hmem : v ∈ g.roots depsLeft := by
      refine mem_filter.2 ⟨hv.1, decide_eq_true ?_⟩
      rw [h v hv.1, hv.2]
      rfl
    have hnodup : (g.roots depsLeft).Nodup := g.nodup.filter _
    rw [ready, if_pos hv, count_eq_one_of_mem hnodup hmem]
    rfl
  · have hmem : v ∉ g.roots depsLeft := by
      intro hmem
      obtain ⟨hname, hzero⟩ := mem_filter.1 hmem
      rw [decide_eq_true_eq, h v hname, ofNat_eq_zero (remaining_lt hfits released v)] at hzero
      exact hv ⟨hname, hzero⟩
    rw [ready, if_neg hv, count_eq_zero_of_not_mem hmem]
    rfl

/-- A release makes ready what it puts on its list, once each. -/
theorem release_ready (hfits : g.FitsInt) {after : Name → BitVec 32} {nodes : List Name}
    (h : g.Counters depsLeft released) (hu : u ∈ g.names) (hnew : u ∉ released)
    (hrelease : g.releaseDeps (g.depsList u) depsLeft = (after, nodes)) :
    g.Counters after (u :: released) ∧
      ∀ v, g.ready released v + nodes.count v ≤ g.ready (u :: released) v := by
  have hsplit := fun v => remaining_cons hu hnew v
  obtain ⟨hleft, hcount⟩ := releaseDeps_spec (fun v hv => Edge.target hv) h
    (remaining_lt hfits released) (fun v => by rw [hsplit v]; exact Nat.le_add_right _ _)
  rw [hrelease] at hleft hcount
  constructor
  · intro v hv
    have hafter := hleft v hv
    rw [hsplit v, Nat.add_sub_cancel_left] at hafter
    exact hafter
  · intro v
    have hcountv := hcount v
    have hsplitv := hsplit v
    rw [hcountv, ready, ready]
    by_cases hlast : 0 < (g.depsList u).count v ∧ g.remaining released v = (g.depsList u).count v
    · have hv : v ∈ g.names := Edge.target (count_pos_iff.1 hlast.1)
      rw [if_pos hlast, if_neg (by omega), if_pos ⟨hv, by omega⟩]
      decide
    · rw [if_neg hlast]
      by_cases hready : v ∈ g.names ∧ g.remaining released v = 0
      · rw [if_pos hready, if_pos ⟨hready.1, by omega⟩]
        decide
      · rw [if_neg hready]
        split <;> decide

/-- A graph without a cycle has a node to begin with. -/
theorem exists_root (hfits : g.FitsInt) (hcycle : g.hasCycleLocked = false) (hne : g.names ≠ [])
    (h : g.Counters depsLeft []) : g.roots depsLeft ≠ [] := by
  intro hroots
  have hpred : ∀ v ∈ g.names, ∃ u, g.Edge u v := by
    intro v hv
    by_contra hnone
    have hzero : g.remaining [] v = 0 := by
      rw [remaining, List.sum_eq_zero_iff_forall_eq_nat]
      intro k hk
      obtain ⟨node, hnode, rfl⟩ := mem_map.1 hk
      rw [count_eq_zero]
      intro hdep
      have hmem := (mem_filter.1 hnode).1
      refine hnone ⟨node.name, ?_⟩
      rw [Edge, depsList_of_mem hmem]
      exact hdep
    have hcount := count_roots hfits h v
    rw [hroots, ready, if_pos ⟨hv, hzero⟩] at hcount
    simp at hcount
  have hwf : WellFounded (fun a b : {v // v ∈ g.names} =>
      Relation.TransGen g.Edge a.val b.val) := by
    have hirrefl : Std.Irrefl fun a b : {v // v ∈ g.names} =>
        Relation.TransGen g.Edge a.val b.val := by
      refine ⟨fun a ha => ?_⟩
      rw [hasCycleLocked_iff.2 ⟨a.val, ha⟩] at hcycle
      cases hcycle
    exact Finite.wellFounded_of_trans_of_irrefl _
  obtain ⟨first, hfirst⟩ := exists_mem_of_ne_nil _ hne
  obtain ⟨least, -, hleast⟩ := hwf.has_min Set.univ ⟨⟨first, hfirst⟩, trivial⟩
  obtain ⟨u, hedge⟩ := hpred least.val least.property
  exact hleast ⟨u, hedge.source⟩ trivial (Relation.TransGen.single hedge)

end JobThreadGraph

end JobThreads
