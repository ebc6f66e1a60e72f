import OddBuilder.Threads.Dijkstra

/-!
# Convergence of parallelDijkstra

A vertex whose distance fell is scheduled until a task loads the distance, and
the task then carries it along every edge.
-/

namespace JobThreads

open Interleaving Relaxation DijkstraThread DijkstraCall Multiset Function

variable {call : DijkstraCall} {s s' : DijkstraState} {t u : DijkstraThread}
  {born others threads : Multiset DijkstraThread}

theorem numShards_pos (call : DijkstraCall) : 0 < call.numShards :=
  Nat.lt_of_lt_of_le Nat.one_pos (Nat.le_max_left _ _)

theorem DijkstraStep.dist_le (hcall : call.WellFormed) (hmarked : Marked call s)
    (hknows : Knows call s t) (h : DijkstraStep call s t s' born) (x : Nat) :
    call.dist s' x ≤ call.dist s x := by
  rcases h.falls_or hcall hmarked hknows with hnodes | ⟨job, v, w, edges, -, -, hfalls⟩
  · rw [dist_eq_of_nodes call hnodes]
  · exact hfalls.le x

/-- The thread of a step knows what it needs for the next one. -/
theorem DijkstraStep.knows (hcall : call.WellFormed) (hmarked : Marked call s)
    (hknows : Knows call s t) (hfinite : ∀ x ∈ t.visits, call.dist s x < call.inf)
    (h : DijkstraStep call s t s' born) : ∀ u ∈ born, Knows call s' u := by
  have hle := h.dist_le hcall hmarked hknows
  cases h with
  | spawn _ current next limit =>
    intro u hu
    rcases mem_cons.1 hu with rfl | hu
    · trivial
    · obtain ⟨indexes, -, rfl⟩ := List.mem_map.1 (mem_coe.1 hu)
      trivial
  | load _ current limit idx rest =>
    intro u hu
    rw [mem_singleton.1 hu]
    refine ⟨Nat.mod_lt _ (numShards_pos call), hmarked.attained _ ?_, fun _ hedge => hedge⟩
    exact hfinite _ (List.mem_map.2 ⟨idx, List.mem_cons_self, rfl⟩)
  | examine _ job v weight edges hlt =>
    intro u hu
    rw [mem_singleton.1 hu]
    obtain ⟨hshard, hattained, hedges⟩ := hknows
    have hedge : call.Edge job.u v weight := hedges _ List.mem_cons_self
    refine ⟨hshard, hattained, fun edge h => hedges edge (List.mem_cons_of_mem _ h), ?_, hlt⟩
    exact ⟨weight, hedge, (hcall.add_eq hattained hedge).1⟩
  | pass _ job v weight edges hle' =>
    intro u hu
    rw [mem_singleton.1 hu]
    obtain ⟨hshard, hattained, hedges⟩ := hknows
    exact ⟨hshard, hattained, fun edge h => hedges edge (List.mem_cons_of_mem _ h)⟩
  | exchange _ job v newDist old edges hold =>
    intro u hu
    rw [mem_singleton.1 hu]
    obtain ⟨hshard, hattained, hedges, -⟩ := hknows
    refine ⟨?_, ?_, ?_⟩
    · rw [RelaxJob.push_shard]
      exact hshard
    · rw [RelaxJob.push_u, RelaxJob.push_dist]
      exact hattained.mono hle
    · rw [RelaxJob.push_u]
      exact hedges
  | retry _ job v newDist old edges hne hlt =>
    intro u hu
    rw [mem_singleton.1 hu]
    obtain ⟨hshard, hattained, hedges, hnew, -⟩ := hknows
    exact ⟨hshard, hattained, hedges, hnew, hlt⟩
  | giveUp _ job v newDist old edges hne hle' =>
    intro u hu
    rw [mem_singleton.1 hu]
    obtain ⟨hshard, hattained, hedges, -⟩ := hknows
    exact ⟨hshard, hattained, hedges⟩
  | relaxed _ job =>
    intro u hu
    rw [mem_singleton.1 hu]
    exact hknows.1
  | publish _ job =>
    intro u hu
    rw [mem_singleton.1 hu]
    exact hknows
  | publishHeavy _ job =>
    intro u hu
    rw [mem_singleton.1 hu]
    trivial
  | countDown _ current limit =>
    intro u hu
    exact absurd hu (notMem_zero u)
  | again _ next limit hlatch hlight =>
    intro u hu
    rw [mem_singleton.1 hu]
    rintro x (hx | hx)
    · exact List.mem_append_left _ hx
    · exact List.mem_append_right _ (List.mem_append_right _ hx)
  | advance _ next limit hlatch hlight hnext =>
    intro u hu
    rw [mem_singleton.1 hu]
    rintro x (hx | hx)
    · simp [hlight] at hx
    · exact List.mem_append_left _ (List.mem_append_right _ hx)
  | finish _ next limit hlatch hlight hnext =>
    intro u hu
    rw [mem_singleton.1 hu]
    trivial

/-- What the other threads know stays true. -/
theorem DijkstraStep.knows_other (hcall : call.WellFormed) (hmarked : Marked call s)
    (hknows : Knows call s t) (hphase : Phase s (t ::ₘ others))
    (h : DijkstraStep call s t s' born) (hu : u ∈ others) (hother : Knows call s u) :
    Knows call s' u := by
  have hle := h.dist_le hcall hmarked hknows
  cases u with
  | relaxing job edges =>
    obtain ⟨hshard, hattained, hedges⟩ := hother
    exact ⟨hshard, hattained.mono hle, hedges⟩
  | trying job v newDist old edges =>
    obtain ⟨hshard, hattained, hedges, hnew, hlt⟩ := hother
    exact ⟨hshard, hattained.mono hle, hedges, hnew, hlt⟩
  | publishing job => exact hother
  | publishingHeavy job => exact hother
  | wave current next limit => cases hphase.others_waiting _ hu rfl
  | _ => trivial

/-- In a bucket, in a buffer, or to come in the loop of a task. -/
def Scheduled (call : DijkstraCall) (s : DijkstraState) (threads : Multiset DijkstraThread)
    (x : Nat) : Prop :=
  x ∈ call.nextWave s ∨ x ∈ call.nextHeavy s ∨ ∃ t ∈ threads, x ∈ t.visits

theorem scheduled_singleton {x : Nat} : Scheduled call s {t} x ↔
    x ∈ call.nextWave s ∨ x ∈ call.nextHeavy s ∨ x ∈ t.visits := by
  simp [Scheduled]

theorem scheduled_cons {x : Nat} : Scheduled call s (t ::ₘ others) x ↔
    Scheduled call s {t} x ∨ ∃ u ∈ others, x ∈ u.visits := by
  simp [Scheduled, or_assoc]

theorem scheduled_add {x : Nat} : Scheduled call s (born + others) x ↔
    Scheduled call s born x ∨ ∃ u ∈ others, x ∈ u.visits := by
  simp [Scheduled, or_and_right, exists_or, or_assoc]

theorem mem_nextWave_publish (s : DijkstraState) (job : RelaxJob) (hshard : job.shard < call.numShards) {x : Nat} :
    x ∈ call.nextWave { s with
        light := Function.update s.light job.shard (s.light job.shard ++ job.localLight) } ↔
      x ∈ call.nextWave s ∨ x ∈ job.localLight := by
  simp only [mem_nextWave]
  constructor
  · rintro ⟨i, hi, hx⟩
    by_cases hij : i = job.shard
    · subst hij
      rw [update_self] at hx
      exact (List.mem_append.1 hx).imp_left fun hx => ⟨_, hi, hx⟩
    · rw [update_of_ne hij] at hx
      exact Or.inl ⟨i, hi, hx⟩
  · rintro (⟨i, hi, hx⟩ | hx)
    · refine ⟨i, hi, ?_⟩
      by_cases hij : i = job.shard
      · subst hij
        rw [update_self]
        exact List.mem_append_left _ hx
      · rw [update_of_ne hij]
        exact hx
    · refine ⟨_, hshard, ?_⟩
      rw [update_self]
      exact List.mem_append_right _ hx

theorem mem_nextHeavy_publish (s : DijkstraState) (job : RelaxJob) (hshard : job.shard < call.numShards) {x : Nat} :
    x ∈ call.nextHeavy { s with
        heavy := Function.update s.heavy job.shard (s.heavy job.shard ++ job.localHeavy) } ↔
      x ∈ call.nextHeavy s ∨ x ∈ job.localHeavy :=
  mem_nextWave_publish ⟨s.nodes, s.heavy, s.light, s.latch⟩
    { job with localLight := job.localHeavy } hshard

/-- The tasks of a wave run over all of its bucket. -/
theorem mem_tasks_visits (call : DijkstraCall) (current : List Nat) (limit x : Nat) :
    (∃ u ∈ Multiset.ofList ((call.tasks current.length).map (.worker current limit)),
      x ∈ DijkstraThread.visits u) ↔ x ∈ current := by
  have hflatten : (call.tasks current.length).flatten = List.range current.length :=
    parallelFor_flatten _ _ _
  have hindex : x ∈ current ↔
      ∃ idx ∈ (call.tasks current.length).flatten, current.getD idx 0 = x := by
    rw [hflatten]
    constructor
    · intro hx
      obtain ⟨idx, hlt, hget⟩ := List.getElem_of_mem hx
      exact ⟨idx, List.mem_range.2 hlt, by simp [hlt, hget]⟩
    · rintro ⟨idx, hidx, rfl⟩
      have hlt := List.mem_range.1 hidx
      simp [hlt]
  rw [hindex]
  simp only [mem_coe, List.mem_map, List.mem_flatten]
  constructor
  · rintro ⟨_, ⟨indexes, htask, rfl⟩, hx⟩
    obtain ⟨idx, hidx, hget⟩ := List.mem_map.1 hx
    exact ⟨idx, ⟨indexes, htask, hidx⟩, hget⟩
  · rintro ⟨idx, ⟨indexes, htask, hidx⟩, hget⟩
    exact ⟨_, ⟨indexes, htask, rfl⟩, List.mem_map.2 ⟨idx, hidx, hget⟩⟩

/-- A task that has loaded the distance of a vertex. -/
structure Loads (call : DijkstraCall) (s s' : DijkstraState)
    (born : Multiset DijkstraThread) (job : RelaxJob) : Prop where
  state : s' = s
  born : born = {.relaxing job (call.neighbors job.u)}
  dist : job.dist = call.dist s job.u

/-- A step keeps what is scheduled, loads a scheduled vertex, or schedules one whose distance
falls. -/
theorem DijkstraStep.scheduled_cases (hcall : call.WellFormed) (hmarked : Marked call s)
    (hknows : Knows call s t) (h : DijkstraStep call s t s' born) :
    (s'.nodes = s.nodes ∧ ∀ x, Scheduled call s' born x ↔ Scheduled call s {t} x) ∨
      (∃ job, Loads call s s' born job ∧
        ∀ x, Scheduled call s {t} x ↔ x = job.u ∨ Scheduled call s' born x) ∨
      ∃ job v w edges, born = {.relaxing (job.push v (job.dist + w)) edges} ∧
        Falls call s s' job v w ∧
        ∀ x, Scheduled call s' born x ↔ x = v ∨ Scheduled call s {t} x := by
  cases h with
  | spawn _ current next limit =>
    refine Or.inl ⟨rfl, fun x => ?_⟩
    have hlight : x ∉ call.nextWave ⟨s.nodes, fun _ => [], fun _ => [],
        (call.tasks current.length).length⟩ := by
      simp [nextWave]
    have hheavy : x ∉ call.nextHeavy ⟨s.nodes, fun _ => [], fun _ => [],
        (call.tasks current.length).length⟩ := by
      simp [nextHeavy]
    have htasks := mem_tasks_visits call current limit x
    have hshards := hknows x
    rw [scheduled_singleton, Scheduled]
    simp only [mem_cons, exists_eq_or_imp, htasks]
    simp only [visits] at hshards ⊢
    grind
  | load _ current limit idx rest =>
    right; left
    refine ⟨_, ⟨rfl, rfl, rfl⟩, ?_⟩
    intro x
    simp only [scheduled_singleton, visits, beginJob, RelaxJob.visits]
    grind
  | exchange _ job v newDist old edges hold =>
    right; right
    have hnodes : ({ s with nodes := s.nodes.set v ⟨newDist, some job.u⟩ } : DijkstraState).nodes =
      s.nodes.set v ⟨newDist, some job.u⟩ := rfl
    obtain ⟨w, rfl, hfalls⟩ := hmarked.falls hcall hknows hold hnodes
    refine ⟨job, v, w, edges, rfl, hfalls, ?_⟩
    intro x
    simp only [scheduled_singleton, visits, RelaxJob.mem_push_visits, nextWave, nextHeavy]
    grind
  | publish _ job =>
    refine Or.inl ⟨rfl, fun x => ?_⟩
    simp only [scheduled_singleton, mem_nextWave_publish s job hknows, nextHeavy, visits,
      RelaxJob.visits]
    grind
  | publishHeavy _ job =>
    refine Or.inl ⟨rfl, fun x => ?_⟩
    simp only [scheduled_singleton, mem_nextHeavy_publish s job hknows, nextWave, visits]
    grind
  | countDown _ current limit =>
    refine Or.inl ⟨rfl, fun x => ?_⟩
    simp [Scheduled, nextWave, nextHeavy, visits]
  | again _ next limit hlatch hlight =>
    refine Or.inl ⟨rfl, fun x => ?_⟩
    simp only [scheduled_singleton, visits]
    grind
  | advance _ next limit hlatch hlight hnext =>
    refine Or.inl ⟨rfl, fun x => ?_⟩
    simp only [scheduled_singleton, visits]
    grind
  | finish _ next limit hlatch hlight hnext =>
    refine Or.inl ⟨rfl, fun x => ?_⟩
    obtain ⟨hnext⟩ := List.append_eq_nil_iff.1 hnext
    simp [scheduled_singleton, visits, hnext]
  | examine | pass | retry | giveUp | relaxed =>
    refine Or.inl ⟨rfl, fun x => ?_⟩
    simp [scheduled_singleton, visits]

/-- A task that has the distance of `x` in work and comes to the edge, or is at it. -/
def Carries (call : DijkstraCall) (s : DijkstraState) (x v w : Nat) : DijkstraThread → Prop
  | .relaxing job edges => job.u = x ∧ job.dist = call.dist s x ∧ (v, w) ∈ edges
  | .trying job y newDist _ edges =>
    job.u = x ∧ job.dist = call.dist s x ∧ ((v, w) ∈ edges ∨ (y = v ∧ newDist = job.dist + w))
  | _ => False

theorem Carries.of_dist_eq {x v w : Nat} (h : Carries call s x v w u)
    (hdist : call.dist s' x = call.dist s x) : Carries call s' x v w u := by
  cases u with
  | relaxing job edges =>
    obtain ⟨hu, hd, hedge⟩ := h
    exact ⟨hu, hd.trans hdist.symm, hedge⟩
  | trying job y newDist old edges =>
    obtain ⟨hu, hd, hedge⟩ := h
    exact ⟨hu, hd.trans hdist.symm, hedge⟩
  | _ => exact h

/-- A task gives no edge up that is not relaxed. -/
theorem DijkstraStep.carries (hcall : call.WellFormed) (hmarked : Marked call s)
    (hknows : Knows call s t) (h : DijkstraStep call s t s' born) {x v w : Nat}
    (hcarries : Carries call s x v w t) (hdist : call.dist s' x = call.dist s x) :
    call.dist s' v ≤ call.dist s' x + w ∨ ∃ u ∈ born, Carries call s' x v w u := by
  cases h with
  | examine _ job y weight edges hlt =>
    obtain ⟨-, hattained, hedges⟩ := hknows
    obtain ⟨hu, hd, hedge⟩ := hcarries
    refine Or.inr ⟨_, mem_singleton_self _, hu, hd, ?_⟩
    rcases List.mem_cons.1 hedge with heq | hedge
    · cases heq
      exact Or.inr ⟨rfl, (hcall.add_eq hattained (hedges _ List.mem_cons_self)).1⟩
    · exact Or.inl hedge
  | pass _ job y weight edges hle =>
    obtain ⟨-, hattained, hedges⟩ := hknows
    obtain ⟨hu, hd, hedge⟩ := hcarries
    rcases List.mem_cons.1 hedge with heq | hedge
    · cases heq
      left
      rw [(hcall.add_eq hattained (hedges _ List.mem_cons_self)).1, hd] at hle
      exact hle
    · exact Or.inr ⟨_, mem_singleton_self _, hu, hd, hedge⟩
  | exchange _ job y newDist old edges hold =>
    have hnodes : ({ s with nodes := s.nodes.set y ⟨newDist, some job.u⟩ } : DijkstraState).nodes =
      s.nodes.set y ⟨newDist, some job.u⟩ := rfl
    obtain ⟨weight, rfl, hfalls⟩ := hmarked.falls hcall hknows hold hnodes
    obtain ⟨hu, hd, hedge | ⟨rfl, hnew⟩⟩ := hcarries
    · refine Or.inr ⟨_, mem_singleton_self _, ?_, ?_, hedge⟩
      · rw [RelaxJob.push_u]
        exact hu
      · rw [RelaxJob.push_dist, hdist]
        exact hd
    · left
      rw [hdist, ← hd, hfalls.dist, update_self, hnew]
  | retry _ job y newDist old edges hne hlt =>
    exact Or.inr ⟨_, mem_singleton_self _, hcarries⟩
  | giveUp _ job y newDist old edges hne hle =>
    obtain ⟨hu, hd, hedge | ⟨rfl, hnew⟩⟩ := hcarries
    · exact Or.inr ⟨_, mem_singleton_self _, hu, hd, hedge⟩
    · left
      rw [hnew, hd] at hle
      exact hle
  | relaxed _ job =>
    obtain ⟨-, -, hedge⟩ := hcarries
    exact absurd hedge List.not_mem_nil
  | _ => exact hcarries.elim

/-- An edge from a vertex with a distance is relaxed, or will be. -/
def Converging (call : DijkstraCall) (s : DijkstraState) (threads : Multiset DijkstraThread) :
    Prop :=
  ∀ x v w, call.Edge x v w → call.dist s x < call.inf →
    call.dist s v ≤ call.dist s x + w ∨ Scheduled call s threads x ∨
      ∃ t ∈ threads, Carries call s x v w t

theorem Converging.step (hcall : call.WellFormed) (hmarked : Marked call s)
    (hknows : Knows call s t) (h : Converging call s (t ::ₘ others))
    (hnext : DijkstraStep call s t s' born) : Converging call s' (born + others) := by
  have hle := hnext.dist_le hcall hmarked hknows
  have hscheduled := hnext.scheduled_cases hcall hmarked hknows
  intro x v w hedge hx
  by_cases hsame : call.dist s' x = call.dist s x
  · rcases h x v w hedge (hsame ▸ hx) with hrelaxed | hx' | ⟨u, hu, hcarries⟩
    · left
      rw [hsame]
      exact (hle v).trans hrelaxed
    · rcases scheduled_cons.1 hx' with hx' | hothers
      · rcases hscheduled with ⟨-, hiff⟩ | ⟨job, ⟨rfl, rfl, hd⟩, hiff⟩ | ⟨_, _, _, _, -, -, hiff⟩
        · exact Or.inr (Or.inl (scheduled_add.2 (Or.inl ((hiff x).2 hx'))))
        · rcases (hiff x).1 hx' with rfl | hx'
          · exact Or.inr (Or.inr ⟨_, mem_add.2 (Or.inl (mem_singleton_self _)), rfl, hd, hedge⟩)
          · exact Or.inr (Or.inl (scheduled_add.2 (Or.inl hx')))
        · exact Or.inr (Or.inl (scheduled_add.2 (Or.inl ((hiff x).2 (Or.inr hx')))))
      · exact Or.inr (Or.inl (scheduled_add.2 (Or.inr hothers)))
    · rcases mem_cons.1 hu with rfl | hu
      · rcases hnext.carries hcall hmarked hknows hcarries hsame with hrelaxed | ⟨y, hy, hcarries⟩
        · exact Or.inl hrelaxed
        · exact Or.inr (Or.inr ⟨y, mem_add.2 (Or.inl hy), hcarries⟩)
      · exact Or.inr (Or.inr ⟨u, mem_add.2 (Or.inr hu), hcarries.of_dist_eq hsame⟩)
  · rcases hscheduled with ⟨hnodes, -⟩ | ⟨job, ⟨rfl⟩, -⟩ | ⟨_, y, _, _, -, hfalls, hiff⟩
    · exact absurd (congrFun (dist_eq_of_nodes call hnodes) x) hsame
    · exact absurd rfl hsame
    · have hxy : x = y := by
        by_contra hne
        rw [hfalls.dist, update_of_ne hne] at hsame
        exact hsame rfl
      exact Or.inr (Or.inl (scheduled_add.2 (Or.inl ((hiff x).2 (Or.inl hxy)))))

structure Searches (call : DijkstraCall) (s : DijkstraState) (threads : Multiset DijkstraThread) :
    Prop where
  marked : Marked call s
  knows : ∀ t ∈ threads, Knows call s t
  phase : Phase s threads
  finite : ∀ x, Scheduled call s threads x → call.dist s x < call.inf
  converging : Converging call s threads

theorem Searches.step (hcall : call.WellFormed) (h : Searches call s (t ::ₘ others))
    (hnext : DijkstraStep call s t s' born) : Searches call s' (born + others) := by
  have hknows := h.knows t (mem_cons_self _ _)
  have hle := hnext.dist_le hcall h.marked hknows
  constructor
  · rcases hnext.falls_or hcall h.marked hknows with hnodes | ⟨job, v, w, edges, -, -, hfalls⟩
    · exact h.marked.of_nodes hnodes
    · exact h.marked.of_falls hfalls
  · intro u hu
    rcases mem_add.1 hu with hu | hu
    · refine hnext.knows hcall h.marked hknows ?_ u hu
      intro x hx
      exact h.finite x (Or.inr (Or.inr ⟨t, mem_cons_self _ _, hx⟩))
    · exact hnext.knows_other hcall h.marked hknows h.phase hu
        (h.knows u (mem_cons_of_mem hu))
  · exact h.phase.step hnext
  · intro x hx
    have hold : Scheduled call s (t ::ₘ others) x → call.dist s' x < call.inf := by
      intro hx
      exact lt_of_le_of_lt (hle x) (h.finite x hx)
    rcases scheduled_add.1 hx with hx | hothers
    · rcases hnext.scheduled_cases hcall h.marked hknows with
        ⟨-, hiff⟩ | ⟨job, -, hiff⟩ | ⟨job, v, w, edges, -, hfalls, hiff⟩
      · exact hold (scheduled_cons.2 (Or.inl ((hiff x).1 hx)))
      · exact hold (scheduled_cons.2 (Or.inl ((hiff x).2 (Or.inr hx))))
      · rcases (hiff x).1 hx with rfl | hx
        · rw [hfalls.dist, update_self]
          exact lt_of_lt_of_le hfalls.less (h.marked.limited x)
        · exact hold (scheduled_cons.2 (Or.inl hx))
    · exact hold (scheduled_cons.2 (Or.inr hothers))
  · exact h.converging.step hcall h.marked hknows hnext

end JobThreads
