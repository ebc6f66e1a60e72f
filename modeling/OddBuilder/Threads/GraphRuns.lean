import OddBuilder.Threads.Kahn

/-!
# Runs of a graph

What is kept while closures of a run are under way. For a node, what is logged and
the closures still to reach that point are together at most one, and none before
the edges to the node are released.
-/

namespace JobThreads

open Interleaving JobThreadGraph Multiset

variable {Name : Type}

namespace ClosurePc

/-- The nodes whose closures it will submit. -/
def pending : ClosurePc Name → List Name
  | .spawning ready => ready
  | _ => []

/-- Before the start of the task. -/
def unstarted : ClosurePc Name → ℤ
  | .queued => 1
  | .fetched => 1
  | .starting => 1
  | _ => 0

/-- Before the release of the edges. -/
def unreleased : ClosurePc Name → ℤ
  | .queued => 1
  | .fetched => 1
  | .starting => 1
  | .executing => 1
  | .finishing => 1
  | .releasing => 1
  | _ => 0

/-- Before the count of the closure, which every closure is. -/
def uncounted : ClosurePc Name → ℤ := fun _ => 1

/-- Will do nothing but set the promise and count. -/
def inert : ClosurePc Name → Bool
  | .breaking => true
  | .counting => true
  | _ => false

end ClosurePc

namespace GraphThread

/-- The run that a thread works for. -/
def run? : GraphThread Name → Option Nat
  | .caller _ => none
  | .preparing _ r => some r
  | .submitting _ r => some r
  | .closure r _ _ => some r
  | .last r => some r
  | .completing r => some r

def isCaller : GraphThread Name → Bool
  | .caller _ => true
  | .preparing _ _ => true
  | .submitting _ _ => true
  | _ => false

def inert : GraphThread Name → Bool
  | .closure _ _ pc => pc.inert
  | .last _ => true
  | .completing _ => true
  | _ => false

variable [DecidableEq Name]

/-- How many closures for `v` in run `r` the thread stands for before some point. -/
def weight (before : ClosurePc Name → ℤ) (r : Nat) (v : Name) : GraphThread Name → ℤ
  | .closure r' v' pc =>
    if r' = r then (if v' = v then before pc else 0) + pc.pending.count v else 0
  | _ => 0

theorem weight_nonneg (before : ClosurePc Name → ℤ) (h : ∀ pc, 0 ≤ before pc) (r : Nat) (v : Name)
    (t : GraphThread Name) : 0 ≤ t.weight before r v := by
  cases t with
  | closure r' v' pc =>
    have hpc := h pc
    simp only [weight]
    split
    · split <;> omega
    · exact Int.le_refl 0
  | _ => exact Int.le_refl 0

end GraphThread

open GraphThread ClosurePc

variable [DecidableEq Name]

/-- What is logged for a node, and what will be. -/
def tally (before : ClosurePc Name → ℤ) (log : List Name) (r : Nat)
    (threads : Multiset (GraphThread Name)) (v : Name) : ℤ :=
  log.count v + total (weight before r v) threads

/-- What a thread of run `r` can rely on. -/
def Asserts (g : JobThreadGraph Name) (s : GraphState Name) (r : Nat) : GraphThread Name → Prop
  | .closure r' v pc => r' = r →
    match pc with
    | .breaking => s.failed = true
    | .finishing => v ∈ (s.run r).returned ∨ s.failed = true
    | .releasing => v ∈ (s.run r).returned
    | .spawning _ => v ∈ (s.run r).returned ∨ s.failed = true
    | .counting => v ∈ (s.run r).returned ∨ s.failed = true
    | _ => True
  | .last r' => r' = r → ∀ v ∈ g.names, v ∈ (s.run r).counted
  | .completing r' => r' = r → ∀ v ∈ g.names, v ∈ (s.run r).counted ∧ v ∈ (s.run r).returned
  | _ => True

/-- No closure of run `r` exists. -/
def NoClosures (r : Nat) (threads : Multiset (GraphThread Name)) : Prop :=
  ∀ t ∈ threads, t.run? = some r → t.isCaller = true

structure Current (g : JobThreadGraph Name) (s : GraphState Name) (r : Nat)
    (threads : Multiset (GraphThread Name)) : Prop where
  starts : ∀ v, tally unstarted (s.run r).started r threads v ≤ g.ready (s.run r).released v
  releases : ∀ v, tally unreleased (s.run r).released r threads v ≤ g.ready (s.run r).released v
  counts : ∀ v, tally uncounted (s.run r).counted r threads v ≤ g.ready (s.run r).released v
  returned : ∀ v ∈ (s.run r).released, v ∈ (s.run r).returned
  finished : ∀ v ∈ (s.run r).counted, v ∈ (s.run r).returned ∨ s.failed = true
  cnt : (s.run r).cnt = BitVec.ofNat 32 (s.run r).counted.length
  value : (s.run r).promise = some true →
    ∀ v ∈ g.names, v ∈ (s.run r).counted ∧ v ∈ (s.run r).returned
  asserts : ∀ t ∈ threads, Asserts g s r t
  blank : (∃ calls, .preparing calls r ∈ threads ∨ .submitting calls r ∈ threads) →
    s.run r = .create ∧ NoClosures r threads
  counters : ((∀ calls, .submitting calls r ∉ threads) ∧ NoClosures r threads) ∨
    g.Counters s.depsLeft (s.run r).released

/-- The tasks of a run were started once each, and after those they depend on returned. -/
structure Orderly (g : JobThreadGraph Name) (run : GraphRun Name) : Prop where
  once : run.started.Nodup
  after : ∀ v ∈ run.started, ∀ u, g.Edge u v → u ∈ run.returned

section Current

variable {g : JobThreadGraph Name} {s s' : GraphState Name} {r : Nat}
  {threads others born : Multiset (GraphThread Name)} {v : Name}
variable {t : GraphThread Name}

theorem Current.orderly (h : Current g s r threads) : Orderly g (s.run r) := by
  have hle : ∀ v, ((s.run r).started.count v : ℤ) ≤ g.ready (s.run r).released v := by
    intro v
    have hstarts := h.starts v
    have hthreads := total_nonneg (weight_nonneg unstarted
      (fun pc => by cases pc <;> simp [unstarted]) r v) threads
    rw [tally] at hstarts
    omega
  constructor
  · rw [List.nodup_iff_count_le_one]
    intro v
    have hone := (hle v).trans (ready_le_one (g := g) _ v)
    omega
  · intro v hv u hedge
    have hpos : 0 < (s.run r).started.count v := List.count_pos_iff.2 hv
    have hready : 0 < g.ready (s.run r).released v := by
      have := hle v
      omega
    exact h.returned u (released_of_remaining (ready_pos hready).2 hedge)

/-- The node of a closure is a node of the graph, and it is not counted yet. -/
theorem Current.closure_mem {pc : ClosurePc Name} (h : Current g s r (.closure r v pc ::ₘ others)) :
    v ∈ g.names ∧ v ∉ (s.run r).counted := by
  have hcounts := h.counts v
  have hothers := total_nonneg (weight_nonneg uncounted
    (fun _ => Int.one_nonneg) r v) others
  simp only [tally, total_cons, weight, if_true, uncounted] at hcounts
  have hready : 0 < g.ready (s.run r).released v := by omega
  refine ⟨(ready_pos hready).1, ?_⟩
  intro hmem
  have hpos : 0 < (s.run r).counted.count v := List.count_pos_iff.2 hmem
  have hone := ready_le_one (g := g) (s.run r).released v
  omega

/-- What only grows, while the counters and the count stay. -/
structure Grows (s s' : GraphState Name) (r : Nat) : Prop where
  returned : ∀ v ∈ (s.run r).returned, v ∈ (s'.run r).returned
  failed : s.failed = true → s'.failed = true
  released : (s'.run r).released = (s.run r).released
  counted : (s'.run r).counted = (s.run r).counted
  cnt : (s'.run r).cnt = (s.run r).cnt
  depsLeft : s'.depsLeft = s.depsLeft

omit [DecidableEq Name] in
theorem Grows.refl (s : GraphState Name) (r : Nat) : Grows s s r :=
  ⟨fun _ => id, id, rfl, rfl, rfl, rfl⟩

omit [DecidableEq Name] in
theorem Grows.of_modify {change : GraphRun Name → GraphRun Name}
    (hreturned : ∀ v ∈ (s.run r).returned, v ∈ (change (s.run r)).returned)
    (hreleased : (change (s.run r)).released = (s.run r).released)
    (hcounted : (change (s.run r)).counted = (s.run r).counted)
    (hcnt : (change (s.run r)).cnt = (s.run r).cnt) : Grows s (s.modify r change) r := by
  constructor
  · rw [modify_run_self]
    exact hreturned
  · exact id
  · rw [modify_run_self]
    exact hreleased
  · rw [modify_run_self]
    exact hcounted
  · rw [modify_run_self]
    exact hcnt
  · rfl

omit [DecidableEq Name] in
theorem Asserts.mono (h : Asserts g s r t)
    (hreturned : ∀ v ∈ (s.run r).returned, v ∈ (s'.run r).returned)
    (hcounted : ∀ v ∈ (s.run r).counted, v ∈ (s'.run r).counted)
    (hfailed : s.failed = true → s'.failed = true) : Asserts g s' r t := by
  cases t with
  | closure r' v pc =>
    intro hr
    have hpc := h hr
    cases pc with
    | breaking => exact hfailed hpc
    | finishing | spawning | counting => exact hpc.imp (hreturned v) hfailed
    | releasing => exact hreturned v hpc
    | _ => trivial
  | last r' =>
    intro hr v hv
    exact hcounted v (h hr v hv)
  | completing r' =>
    intro hr v hv
    obtain ⟨hmem, hret⟩ := h hr v hv
    exact ⟨hcounted v hmem, hreturned v hret⟩
  | _ => trivial

omit [DecidableEq Name] in
theorem not_noClosures (others : Multiset (GraphThread Name)) (hrun : t.run? = some r)
    (hcaller : t.isCaller = false) : ¬ NoClosures r (t ::ₘ others) := by
  intro h
  rw [h t (mem_cons_self _ _) hrun] at hcaller
  cases hcaller

/-- With a closure about, the run was submitted: no caller is within its call, and the counters
are those of the run. -/
theorem Current.submitted (h : Current g s r (t ::ₘ others)) (hrun : t.run? = some r)
    (hcaller : t.isCaller = false) :
    (∀ calls, .preparing calls r ∉ others ∧ .submitting calls r ∉ others) ∧
      g.Counters s.depsLeft (s.run r).released := by
  have hclosure := not_noClosures others hrun hcaller
  constructor
  · intro calls
    constructor
    · intro hmem
      exact hclosure (h.blank ⟨calls, Or.inl (mem_cons_of_mem hmem)⟩).2
    · intro hmem
      exact hclosure (h.blank ⟨calls, Or.inr (mem_cons_of_mem hmem)⟩).2
  · rcases h.counters with hnone | hcounters
    · exact absurd hnone.2 hclosure
    · exact hcounters

omit [DecidableEq Name] in
theorem blank_of_none {P : Prop}
    (h : ∀ calls, .preparing calls r ∉ threads ∧ .submitting calls r ∉ threads) :
    (∃ calls, .preparing calls r ∈ threads ∨ .submitting calls r ∈ threads) → P := by
  rintro ⟨calls, hmem | hmem⟩
  · exact absurd hmem (h calls).1
  · exact absurd hmem (h calls).2

/-- A closure goes on, and submits nothing. -/
theorem Current.move {pc pc' : ClosurePc Name}
    (h : Current g s r (.closure r v pc ::ₘ others)) (hgrows : Grows s s' r)
    (hpromise : (s'.run r).promise = some true → (s.run r).promise = some true)
    (hpc : pc.pending = []) (hpc' : pc'.pending = [])
    (hstarted : ∀ w, ((s'.run r).started.count w : ℤ) + (if v = w then pc'.unstarted else 0) ≤
      (s.run r).started.count w + if v = w then pc.unstarted else 0)
    (hreleased : pc'.unreleased ≤ pc.unreleased) (hassert : Asserts g s' r (.closure r v pc')) :
    Current g s' r (.closure r v pc' ::ₘ others) := by
  obtain ⟨hnone, hcounters⟩ := h.submitted rfl rfl
  have hnone' : ∀ calls, .preparing calls r ∉ GraphThread.closure r v pc' ::ₘ others ∧
      .submitting calls r ∉ GraphThread.closure r v pc' ::ₘ others := by
    intro calls
    simpa using hnone calls
  refine ⟨?_, ?_, ?_, ?_, ?_, ?_, ?_, ?_, blank_of_none hnone', Or.inr ?_⟩
  · intro w
    have hstarts := h.starts w
    have hw := hstarted w
    simp only [tally, total_cons, weight, if_true, hpc, hpc', hgrows.released]
      at hstarts ⊢
    omega
  · intro w
    have hreleases := h.releases w
    simp only [tally, total_cons, weight, if_true, hpc, hpc', hgrows.released]
      at hreleases ⊢
    by_cases hw : v = w
    · rw [if_pos hw] at hreleases ⊢
      omega
    · rw [if_neg hw] at hreleases ⊢
      exact hreleases
  · intro w
    have hcounts := h.counts w
    simp only [tally, total_cons, weight, hpc, hpc', hgrows.released, hgrows.counted] at hcounts ⊢
    exact hcounts
  · intro w hw
    rw [hgrows.released] at hw
    exact hgrows.returned w (h.returned w hw)
  · intro w hw
    rw [hgrows.counted] at hw
    exact (h.finished w hw).imp (hgrows.returned w) hgrows.failed
  · rw [hgrows.cnt, hgrows.counted]
    exact h.cnt
  · intro hvalue w hw
    obtain ⟨hmem, hret⟩ := h.value (hpromise hvalue) w hw
    exact ⟨hgrows.counted ▸ hmem, hgrows.returned w hret⟩
  · intro t ht
    rcases mem_cons.1 ht with rfl | ht
    · exact hassert
    · exact (h.asserts t (mem_cons_of_mem ht)).mono hgrows.returned
        (fun w hw => hgrows.counted ▸ hw) hgrows.failed
  · rw [hgrows.released, hgrows.depsLeft]
    exact hcounters

/-- A closure releases the edges of its node. -/
theorem Current.release (hfits : g.FitsInt) {depsLeft : Name → BitVec 32} {nodes : List Name}
    (h : Current g s r (.closure r v .releasing ::ₘ others))
    (hrelease : g.releaseDeps (g.depsList v) s.depsLeft = (depsLeft, nodes)) :
    Current g { s.modify r fun run => { run with released := v :: run.released } with
      depsLeft := depsLeft } r (.closure r v (.spawning nodes) ::ₘ others) := by
  obtain ⟨hnone, hcounters⟩ := h.submitted rfl rfl
  have hnone' : ∀ calls, .preparing calls r ∉ GraphThread.closure r v (.spawning nodes) ::ₘ others ∧
      .submitting calls r ∉ GraphThread.closure r v (.spawning nodes) ::ₘ others := by
    intro calls
    simpa using hnone calls
  have hreturned : v ∈ (s.run r).returned := h.asserts _ (mem_cons_self _ _) rfl
  have hnew : v ∉ (s.run r).released := by
    intro hmem
    have hreleases := h.releases v
    have hothers := total_nonneg (weight_nonneg unreleased
      (fun pc => by cases pc <;> simp [unreleased]) r v) others
    have hpos : 0 < (s.run r).released.count v := List.count_pos_iff.2 hmem
    have hone := ready_le_one (g := g) (s.run r).released v
    simp only [tally, total_cons, weight, if_true, unreleased] at hreleases
    omega
  obtain ⟨hafter, hready⟩ := release_ready hfits hcounters h.closure_mem.1 hnew hrelease
  refine ⟨?_, ?_, ?_, ?_, ?_, ?_, ?_, ?_, blank_of_none hnone', Or.inr ?_⟩ <;>
    simp only [GraphState.modify, Function.update_self]
  · intro w
    have hstarts := h.starts w
    have hw := hready w
    simp only [tally, total_cons, weight, pending, unstarted]
      at hstarts ⊢
    omega
  · intro w
    have hreleases := h.releases w
    have hw := hready w
    simp only [tally, total_cons, weight, if_true, pending, unreleased]
      at hreleases ⊢
    by_cases hvw : v = w
    · subst hvw
      rw [if_pos rfl] at hreleases
      rw [List.count_cons_self]
      omega
    · rw [List.count_cons_of_ne hvw]
      omega
  · intro w
    have hcounts := h.counts w
    have hw := hready w
    simp only [tally, total_cons, weight, if_true, pending, uncounted]
      at hcounts ⊢
    omega
  · intro w hw
    rcases List.mem_cons.1 hw with rfl | hw
    · exact hreturned
    · exact h.returned w hw
  · exact h.finished
  · exact h.cnt
  · exact h.value
  · intro t ht
    rcases mem_cons.1 ht with rfl | ht
    · intro _
      exact Or.inl (by simpa using hreturned)
    · refine (h.asserts t (mem_cons_of_mem ht)).mono ?_ ?_ id <;> simp
  · exact hafter

/-- A closure submits the closure of a node that became ready. -/
theorem Current.spawn {w : Name} {nodes : List Name}
    (h : Current g s r (.closure r v (.spawning (w :: nodes)) ::ₘ others)) :
    Current g s r (.closure r w .queued ::ₘ .closure r v (.spawning nodes) ::ₘ others) := by
  obtain ⟨hnone, hcounters⟩ := h.submitted rfl rfl
  have hnone' : ∀ calls,
      .preparing calls r ∉ GraphThread.closure r w .queued ::ₘ .closure r v (.spawning nodes) ::ₘ others ∧
      .submitting calls r ∉ GraphThread.closure r w .queued ::ₘ .closure r v (.spawning nodes) ::ₘ others := by
    intro calls
    simpa using hnone calls
  have hcount : ∀ x, ((w :: nodes).count x : ℤ) = nodes.count x + if w = x then 1 else 0 := by
    intro x
    by_cases hx : w = x <;> simp [hx]
  refine ⟨?_, ?_, ?_, h.returned, h.finished, h.cnt, h.value, ?_, blank_of_none hnone',
    Or.inr hcounters⟩
  · intro x
    have hstarts := h.starts x
    simp only [tally, total_cons, weight, if_true, pending, unstarted, List.count_nil, hcount]
      at hstarts ⊢
    omega
  · intro x
    have hreleases := h.releases x
    simp only [tally, total_cons, weight, if_true, pending, unreleased, List.count_nil, hcount]
      at hreleases ⊢
    omega
  · intro x
    have hcounts := h.counts x
    simp only [tally, total_cons, weight, if_true, pending, uncounted, List.count_nil, hcount]
      at hcounts ⊢
    omega
  · intro t ht
    have hself := h.asserts _ (mem_cons_self _ _)
    rcases mem_cons.1 ht with rfl | ht
    · intro _
      trivial
    · rcases mem_cons.1 ht with rfl | ht
      · exact hself
      · exact h.asserts t (mem_cons_of_mem ht)

/-- All nodes are counted once the count is the number of nodes. -/
theorem all_counted (hfits : g.FitsInt) (counted : List Name) (hnodup : counted.Nodup)
    (hnames : ∀ v ∈ counted, v ∈ g.names)
    (h : BitVec.ofNat 32 counted.length = g.tasks) : ∀ v ∈ g.names, v ∈ counted := by
  have hsub : counted.Subperm g.names := hnodup.subperm hnames
  have hlength : g.names.length = g.nodes.length := List.length_map _
  have hle := hsub.length_le
  have heq : counted.length = g.names.length := by
    have htoNat := congrArg BitVec.toNat h
    rw [tasks_toNat hfits, BitVec.toNat_ofNat] at htoNat
    omega
  intro v hv
  exact (hsub.perm_of_length_le (Nat.le_of_eq heq.symm)).mem_iff.2 hv

/-- A closure counts. -/
theorem Current.countUp (hfits : g.FitsInt) (h : Current g s r (.closure r v .counting ::ₘ others))
    (hborn : born = 0 ∨ born = {.last r} ∧ (s.run r).cnt + 1 = g.tasks) :
    Current g (s.modify r fun run => { run with cnt := run.cnt + 1, counted := v :: run.counted }) r
      (born + others) := by
  obtain ⟨hnone, hcounters⟩ := h.submitted rfl rfl
  have hnone' : ∀ calls, .preparing calls r ∉ born + others ∧
      .submitting calls r ∉ born + others := by
    intro calls
    rcases hborn with rfl | ⟨rfl, -⟩ <;> simpa using hnone calls
  have hborn' : ∀ before w, total (weight before r w) born = 0 := by
    intro before w
    rcases hborn with rfl | ⟨rfl, -⟩ <;> simp [weight]
  have hfinished := h.asserts _ (mem_cons_self _ _) rfl
  have hcnt : (s.run r).cnt + 1 = BitVec.ofNat 32 (v :: (s.run r).counted).length := by
    rw [h.cnt, List.length_cons, BitVec.ofNat_add]
    rfl
  have hcounts : ∀ w, tally uncounted (v :: (s.run r).counted) r (born + others) w ≤
      g.ready (s.run r).released w := by
    intro w
    have hcounts := h.counts w
    simp only [tally, total_add, total_cons, weight, uncounted, hborn', List.count_cons] at hcounts ⊢
    by_cases hvw : v = w
    · subst hvw
      simp only [if_true, beq_self_eq_true] at hcounts ⊢
      omega
    · simp only [if_neg hvw, beq_iff_eq] at hcounts ⊢
      omega
  refine ⟨?_, ?_, ?_, ?_, ?_, ?_, ?_, ?_, blank_of_none hnone', Or.inr ?_⟩ <;>
    simp only [GraphState.modify, Function.update_self]
  · intro w
    have hstarts := h.starts w
    simp only [tally, total_add, total_cons, weight, unstarted, hborn'] at hstarts ⊢
    omega
  · intro w
    have hreleases := h.releases w
    simp only [tally, total_add, total_cons, weight, unreleased, hborn'] at hreleases ⊢
    omega
  · exact hcounts
  · exact h.returned
  · intro w hw
    rcases List.mem_cons.1 hw with rfl | hw
    · exact hfinished
    · exact h.finished w hw
  · exact hcnt
  · intro hpromise w hw
    obtain ⟨hmem, hret⟩ := h.value hpromise w hw
    exact ⟨List.mem_cons_of_mem _ hmem, hret⟩
  · intro t ht
    rcases mem_add.1 ht with ht | ht
    · rcases hborn with rfl | ⟨rfl, htasks⟩
      · exact absurd ht (notMem_zero _)
      · rw [mem_singleton.1 ht]
        intro _ w hw
        have hle : ∀ x, ((v :: (s.run r).counted).count x : ℤ) ≤ g.ready (s.run r).released x := by
          intro x
          have hothers := total_nonneg (weight_nonneg uncounted
            (fun _ => Int.one_nonneg) r x) ({.last r} + others)
          have hx := hcounts x
          rw [tally] at hx
          omega
        have hall := all_counted hfits (v :: (s.run r).counted) (by
          rw [List.nodup_iff_count_le_one]
          intro x
          have hone := (hle x).trans (ready_le_one (g := g) _ x)
          omega) (by
          intro x hx
          have hpos : 0 < (v :: (s.run r).counted).count x := List.count_pos_iff.2 hx
          exact (ready_pos (lt_of_lt_of_le (Int.natCast_pos.2 hpos) (hle x))).1) (hcnt.symm.trans htasks)
        simpa using hall w hw
    · refine (h.asserts t (mem_cons_of_mem ht)).mono ?_ ?_ id
      · simp
      · intro w hw
        simp [hw]
  · exact hcounters

/-- A closure that counted last goes on, or ends. -/
theorem Current.leave (h : Current g s r (t ::ₘ others)) (hgrows : Grows s s' r)
    (hstarted : (s'.run r).started = (s.run r).started) (ht : t = .last r ∨ t = .completing r)
    (hborn : born = 0 ∨ born = {.completing r} ∧ Asserts g s' r (.completing r))
    (hvalue : (s'.run r).promise = some true →
      ∀ v ∈ g.names, v ∈ (s'.run r).counted ∧ v ∈ (s'.run r).returned) :
    Current g s' r (born + others) := by
  have hrun : t.run? = some r ∧ t.isCaller = false ∧ ∀ before w, weight before r w t = 0 := by
    rcases ht with rfl | rfl <;> exact ⟨rfl, rfl, fun _ _ => rfl⟩
  obtain ⟨hnone, hcounters⟩ := h.submitted hrun.1 hrun.2.1
  have hnone' : ∀ calls, .preparing calls r ∉ born + others ∧
      .submitting calls r ∉ born + others := by
    intro calls
    rcases hborn with rfl | ⟨rfl, -⟩ <;> simpa using hnone calls
  have htally : ∀ before log w, tally before log r (born + others) w =
      tally before log r (t ::ₘ others) w := by
    intro before log w
    rw [tally, tally, total_cons, hrun.2.2]
    rcases hborn with rfl | ⟨rfl, -⟩ <;> simp [weight]
  refine ⟨?_, ?_, ?_, ?_, ?_, ?_, hvalue, ?_, blank_of_none hnone', Or.inr ?_⟩
  · rw [hstarted, hgrows.released]
    intro w
    rw [htally]
    exact h.starts w
  · rw [hgrows.released]
    intro w
    rw [htally]
    exact h.releases w
  · rw [hgrows.counted, hgrows.released]
    intro w
    rw [htally]
    exact h.counts w
  · intro w hw
    rw [hgrows.released] at hw
    exact hgrows.returned w (h.returned w hw)
  · intro w hw
    rw [hgrows.counted] at hw
    exact (h.finished w hw).imp (hgrows.returned w) hgrows.failed
  · rw [hgrows.cnt, hgrows.counted]
    exact h.cnt
  · intro u hu
    rcases mem_add.1 hu with hu | hu
    · rcases hborn with rfl | ⟨rfl, hassert⟩
      · exact absurd hu (notMem_zero _)
      · rw [mem_singleton.1 hu]
        exact hassert
    · exact (h.asserts u (mem_cons_of_mem hu)).mono hgrows.returned
        (fun w hw => hgrows.counted ▸ hw) hgrows.failed
  · rw [hgrows.released, hgrows.depsLeft]
    exact hcounters

theorem weight_of_noClosures (h : NoClosures r threads) (before : ClosurePc Name → ℤ) (w : Name) :
    total (weight before r w) threads = 0 := by
  apply total_eq_zero
  intro t ht
  cases t with
  | closure r' v' pc =>
    by_cases hr : r' = r
    · subst hr
      cases h _ ht rfl
    · simp [weight, hr]
  | _ => rfl

theorem ready_nonneg (released : List Name) (w : Name) : 0 ≤ g.ready released w := by
  rw [ready]
  split <;> decide

omit [DecidableEq Name] in
theorem asserts_of_noClosures (h : NoClosures r threads) (ht : t ∈ threads) : Asserts g s r t := by
  cases t with
  | closure r' v' pc =>
    intro hr
    subst hr
    cases h _ ht rfl
  | last r' =>
    intro hr
    subst hr
    cases h _ ht rfl
  | completing r' =>
    intro hr
    subst hr
    cases h _ ht rfl
  | _ => trivial

/-- A run without closures, before it is submitted or after a call that ended early. -/
theorem Current.of_noClosures (h : NoClosures r threads) (value : Option Bool)
    (hrun : s.run r = { GraphRun.create with promise := value })
    (hvalue : value = some true → g.names = [])
    (hblank : (∃ calls, .preparing calls r ∈ threads ∨ .submitting calls r ∈ threads) → value = none)
    (hcounters : (∀ calls, .submitting calls r ∉ threads) ∨ g.Counters s.depsLeft []) :
    Current g s r threads := by
  have htally : ∀ before w, tally before [] r threads w ≤ g.ready [] w := by
    intro before w
    rw [tally, weight_of_noClosures h]
    exact ready_nonneg _ _
  refine ⟨?_, ?_, ?_, ?_, ?_, ?_, ?_, ?_, ?_, ?_⟩
  · rw [hrun]
    exact htally unstarted
  · rw [hrun]
    exact htally unreleased
  · rw [hrun]
    exact htally uncounted
  · rw [hrun]
    simp [GraphRun.create]
  · rw [hrun]
    simp [GraphRun.create]
  · rw [hrun]
    rfl
  · intro hpromise v hv
    rw [hrun] at hpromise
    rw [hvalue hpromise] at hv
    simp at hv
  · intro t ht
    exact asserts_of_noClosures h ht
  · intro hcall
    refine ⟨?_, h⟩
    rw [hrun, hblank hcall]
    rfl
  · rcases hcounters with hnone | hcounters
    · exact Or.inl ⟨hnone, h⟩
    · refine Or.inr ?_
      rw [hrun]
      exact hcounters

theorem total_roots (before : ClosurePc Name → ℤ) (r : Nat) (nodes : List Name) (w : Name) :
    total (weight before r w) (Multiset.ofList (nodes.map fun v => .closure r v .queued)) =
      before .queued * nodes.count w := by
  induction nodes with
  | nil => simp
  | cons v rest ih =>
    rw [List.map_cons, ← cons_coe, total_cons, ih, List.count_cons]
    by_cases hv : v = w
    · simp [weight, pending, mul_add]
      omega
    · simp [weight, pending, hv]

/-- The closures of the roots are submitted. -/
theorem Current.submit (hfits : g.FitsInt) {calls : Nat}
    (h : Current g s r (.submitting calls r ::ₘ others))
    (hcallers : count isCaller others = 0) :
    Current g s r ((.caller calls ::ₘ
      Multiset.ofList ((g.roots s.depsLeft).map fun v => .closure r v .queued)) + others) := by
  obtain ⟨hrun, hnoClosures⟩ := h.blank ⟨calls, Or.inr (mem_cons_self _ _)⟩
  have hothers : NoClosures r others := fun t ht => hnoClosures t (mem_cons_of_mem ht)
  have hcounters : g.Counters s.depsLeft [] := by
    rcases h.counters with hnone | hcounters
    · exact absurd (mem_cons_self _ _) (hnone.1 calls)
    · rw [hrun] at hcounters
      exact hcounters
  have htally : ∀ before : ClosurePc Name → ℤ, before .queued = 1 → ∀ w, tally before [] r ((.caller calls ::ₘ
      Multiset.ofList ((g.roots s.depsLeft).map fun v => .closure r v .queued)) + others) w =
        g.ready [] w := by
    intro before hqueued w
    rw [tally, total_add, total_cons, total_roots, weight_of_noClosures hothers, hqueued, count_roots hfits hcounters]
    simp [weight]
  have hmem : ∀ t ∈ (.caller calls ::ₘ
      Multiset.ofList ((g.roots s.depsLeft).map fun v => GraphThread.closure r v .queued)) + others,
      t = .caller calls ∨ (∃ v, t = .closure r v .queued) ∨ t ∈ others := by
    intro t ht
    rcases mem_add.1 ht with ht | ht
    · rcases mem_cons.1 ht with rfl | ht
      · exact Or.inl rfl
      · obtain ⟨v, -, rfl⟩ := List.mem_map.1 (mem_coe.1 ht)
        exact Or.inr (Or.inl ⟨v, rfl⟩)
    · exact Or.inr (Or.inr ht)
  refine ⟨?_, ?_, ?_, h.returned, h.finished, h.cnt, h.value, ?_, ?_, Or.inr ?_⟩
  · rw [hrun]
    exact fun w => Int.le_of_eq (htally unstarted rfl w)
  · rw [hrun]
    exact fun w => Int.le_of_eq (htally unreleased rfl w)
  · rw [hrun]
    exact fun w => Int.le_of_eq (htally uncounted rfl w)
  · intro t ht
    rcases hmem t ht with rfl | ⟨v, rfl⟩ | ht
    · trivial
    · intro _
      trivial
    · exact asserts_of_noClosures hothers ht
  · rintro ⟨calls', hcall⟩
    have hnone := count_eq_zero.1 hcallers
    rcases hcall with hcall | hcall
    · rcases hmem _ hcall with heq | ⟨v, heq⟩ | hcall
      · cases heq
      · cases heq
      · exact absurd rfl (hnone _ hcall)
    · rcases hmem _ hcall with heq | ⟨v, heq⟩ | hcall
      · cases heq
      · cases heq
      · exact absurd rfl (hnone _ hcall)
  · rw [hrun]
    exact hcounters

/-- A thread of another run, or a caller between calls, goes on. -/
theorem Current.other (h : Current g s r (t ::ₘ others)) (ht : t.run? ≠ some r)
    (hborn : ∀ t' ∈ born, t'.run? ≠ some r) (hrun : s'.run r = s.run r)
    (hdepsLeft : s'.depsLeft = s.depsLeft) (hfailed : s'.failed = s.failed) :
    Current g s' r (born + others) := by
  have hweight : ∀ t' : GraphThread Name, t'.run? ≠ some r → ∀ before w, weight before r w t' = 0 := by
    intro t' ht' before w
    cases t' with
    | closure r' v' pc =>
      have hne : r' ≠ r := fun heq => ht' (congrArg some heq)
      simp [weight, hne]
    | _ => rfl
  have htally : ∀ before log w, tally before log r (born + others) w =
      tally before log r (t ::ₘ others) w := by
    intro before log w
    rw [tally, tally, total_add, total_cons, hweight t ht,
      total_eq_zero fun t' ht' => hweight t' (hborn t' ht') before w]
  have hassert : ∀ t' : GraphThread Name, Asserts g s r t' → Asserts g s' r t' := by
    intro t' ht'
    refine ht'.mono ?_ ?_ ?_
    · rw [hrun]
      exact fun _ => id
    · rw [hrun]
      exact fun _ => id
    · rw [hfailed]
      exact id
  have hmem : ∀ t' ∈ born + others, t'.run? = some r → t' ∈ others := by
    intro t' ht' hrun'
    rcases mem_add.1 ht' with ht' | ht'
    · exact absurd hrun' (hborn t' ht')
    · exact ht'
  have hnone : NoClosures r (t ::ₘ others) → NoClosures r (born + others) := by
    intro hnone t' ht' hrun'
    exact hnone t' (mem_cons_of_mem (hmem t' ht' hrun')) hrun'
  refine ⟨?_, ?_, ?_, ?_, ?_, ?_, ?_, ?_, ?_, ?_⟩
  · intro w
    rw [htally, hrun]
    exact h.starts w
  · intro w
    rw [htally, hrun]
    exact h.releases w
  · intro w
    rw [htally, hrun]
    exact h.counts w
  · rw [hrun]
    exact h.returned
  · rw [hrun, hfailed]
    exact h.finished
  · rw [hrun]
    exact h.cnt
  · rw [hrun]
    exact h.value
  · intro t' ht'
    by_cases hr : t'.run? = some r
    · exact hassert t' (h.asserts t' (mem_cons_of_mem (hmem t' ht' hr)))
    · cases t' with
      | closure r' v' pc => exact fun heq => absurd (congrArg some heq) hr
      | last r' => exact fun heq => absurd (congrArg some heq) hr
      | completing r' => exact fun heq => absurd (congrArg some heq) hr
      | _ => trivial
  · rintro ⟨calls, hcall⟩
    rw [hrun]
    obtain ⟨hcreate, hclosures⟩ := h.blank ⟨calls, hcall.imp
      (fun hcall => mem_cons_of_mem (hmem _ hcall rfl))
      (fun hcall => mem_cons_of_mem (hmem _ hcall rfl))⟩
    exact ⟨hcreate, hnone hclosures⟩
  · rcases h.counters with ⟨hsubmitting, hclosures⟩ | hcounters
    · refine Or.inl ⟨?_, hnone hclosures⟩
      intro calls hcall
      exact hsubmitting calls (mem_cons_of_mem (hmem _ hcall rfl))
    · refine Or.inr ?_
      rw [hrun, hdepsLeft]
      exact hcounters

end Current

end JobThreads
