import OddBuilder.Threads.PoolClosures

/-!
# waitForIdle

What a call of `submit` has handed over is a ticket, in the hands of a worker or
done. `waitForIdle` looks at the scheduler and then at the counter of running
tasks; between the two a worker may have taken a task and not counted it yet.
-/

namespace JobThreads

open Interleaving TaskPool Multiset

variable {σ α β : Type} {P : SchedPolicy σ α β}
variable {k : Nat} {d : Descriptor} {before : List Nat}

namespace TaskThread

/-- The call of `submit` that the thread is in. -/
def calls : TaskThread α β → Multiset Nat
  | .admitting d => {d.call}
  | .storing d => {d.call}
  | .enqueuing d _ => {d.call}
  | .posting d => {d.call}
  | _ => 0

/-- The call has stored its closure. -/
def posts : TaskThread α β → Option Nat
  | .enqueuing d _ => some d.call
  | .posting d => some d.call
  | _ => none

/-- The closure that a worker has in its hands. -/
def works : TaskThread α β → Option Nat
  | .counting _ _ task => some task
  | .starting _ _ task => some task
  | .executing _ _ task => some task
  | _ => none

/-- The worker is in the counter. -/
def counted : TaskThread α β → ℤ
  | .starting _ _ _ => 1
  | .executing _ _ _ => 1
  | .uncounting _ _ => 1
  | _ => 0

/-- What a worker has taken from the scheduler and not counted yet. -/
def transit (P : SchedPolicy σ α β) : TaskThread α β → Multiset Descriptor
  | .taking _ y => P.taken y
  | .removing _ d => {d}
  | .counting _ d _ => {d}
  | _ => 0

/-- The calls that had returned when the thread called `waitForIdle`. -/
def awaits : TaskThread α β → List Nat
  | .sizing before => before
  | .reading before => before
  | .sleeping before => before
  | _ => []

end TaskThread

open TaskThread

/-- Nothing is stored over a closure; the size is read as zero only when the scheduler holds none
of the awaited tasks, and the counter only when no worker has one in transit. -/
def Seen (P : SchedPolicy σ α β) : Guard (TaskPool σ) (TaskThread α β) := fun s t others =>
  Unused s t others ∧
    (∀ before, t = .sizing before → P.size s.scheduler = 0 →
      ∀ d ∈ P.held s.scheduler, d.call ∉ before) ∧
    ∀ before, t = .reading before → s.progress = 0 →
      ∀ u ∈ others, ∀ d ∈ u.transit P, d.call ∉ before

/-- The closure is still to be taken, in the hands of a worker, or done. -/
def Found (P : SchedPolicy σ α β) (s : TaskPool σ) (threads : Multiset (TaskThread α β))
    (call : Nat) : Prop :=
  (∃ d ∈ tickets P s threads, d.call = call) ∨ (∃ t ∈ threads, t.works = some call) ∨
    call ∈ s.finished

structure Tracked (P : SchedPolicy σ α β) (s : TaskPool σ) (threads : Multiset (TaskThread α β)) :
    Prop where
  titled : Titled P s threads
  distinct : (threads.bind calls).Nodup
  running : ∀ k ∈ threads.bind calls, k < s.submits ∧ k ∉ s.returned
  issued : ∀ k ∈ s.returned, k < s.submits
  offered : ∀ d x, .enqueuing d x ∈ threads → ∀ d' ∈ P.offered x, d' = d
  found : ∀ k, (k ∈ s.returned ∨ ∃ t ∈ threads, t.posts = some k) → Found P s threads k
  progress : s.progress = total counted threads
  awaited : ∀ t ∈ threads, ∀ k ∈ t.awaits, k ∈ s.returned
  reading : ∀ before, .reading before ∈ threads → ∀ d ∈ P.held s.scheduler, d.call ∉ before
  idle : ∀ before, .idle before ∈ threads → ∀ k ∈ before, k ∈ s.finished

variable {s s' : TaskPool σ} {t : TaskThread α β} {born others : Multiset (TaskThread α β)}

/-- A call begins, returns, ends without a future, or goes on. -/
theorem TaskStep.calls_cases (h : TaskStep P s t s' born) :
    (born.bind calls = {s.submits} ∧ t.calls = 0 ∧ s'.submits = s.submits + 1 ∧
        s'.returned = s.returned) ∨
      (∃ d, t = .posting d ∧ born = 0 ∧ s'.submits = s.submits ∧
        s'.returned = d.call :: s.returned) ∨
      (born.bind calls ≤ t.calls ∧ s'.submits = s.submits ∧ s'.returned = s.returned) := by
  cases h with
  | issue | bring => exact Or.inl ⟨by simp [calls], rfl, rfl, rfl⟩
  | post _ d => exact Or.inr (Or.inl ⟨d, rfl, rfl, rfl, rfl⟩)
  | _ => exact Or.inr (Or.inr ⟨by simp [calls], rfl, rfl⟩)

/-- Only `enqueue` puts descriptors into the scheduler. -/
theorem TaskStep.held_cases (h : TaskStep P s t s' born) (hd : d ∈ P.held s'.scheduler) :
    d ∈ P.held s.scheduler ∨ ∃ d' x, t = .enqueuing d' x ∧ d ∈ P.offered x := by
  cases h with
  | admits _ _ _ hadmits | reject _ _ _ hadmits =>
    left
    rwa [P.held_admits hadmits] at hd
  | complete _ _ _ _ hcomplete =>
    left
    rwa [P.held_complete hcomplete] at hd
  | take _ _ _ _ _ hstep => exact Or.inl (mem_of_le (P.held_step hstep) hd)
  | enqueue _ d' x _ _ hstep =>
    have hmem := mem_of_le (P.held_enqueue hstep) (mem_add.2 (Or.inl hd))
    rcases mem_add.1 hmem with hheld | hoffered
    · exact Or.inl hheld
    · exact Or.inr ⟨d', x, rfl, hoffered⟩
  | _ => exact Or.inl hd

/-- What is done stays done. -/
theorem TaskStep.finished_mono (h : TaskStep P s t s' born) (hk : k ∈ s.finished) :
    k ∈ s'.finished := by
  cases h with
  | finish => exact List.mem_cons_of_mem _ hk
  | _ => exact hk

/-- A worker keeps its closure until it is done. -/
theorem TaskStep.works_cases (h : TaskStep P s t s' born) (hk : t.works = some k) :
    (∃ u ∈ born, u.works = some k) ∨ k ∈ s'.finished := by
  cases h with
  | count | start => exact Or.inl ⟨_, mem_singleton_self _, hk⟩
  | finish =>
    right
    rw [← Option.some.inj hk]
    exact List.mem_cons_self
  | _ => cases hk

/-- A call that has stored its closure had done so before, or does it now. -/
theorem TaskStep.posts_cases (h : TaskStep P s t s' born) (hk : ∃ u ∈ born, u.posts = some k) :
    t.posts = some k ∨ ∃ d, t = .storing d ∧ d.call = k := by
  obtain ⟨u, hu, hk⟩ := hk
  cases h with
  | issue | bring | waitForIdle =>
    rcases mem_cons.1 hu with rfl | hu
    · cases hk
    · rw [mem_singleton.1 hu] at hk
      cases hk
  | reject | post => exact absurd hu (notMem_zero u)
  | store _ d =>
    rw [mem_singleton.1 hu] at hk
    exact Or.inr ⟨d, rfl, Option.some.inj hk⟩
  | enqueue | enqueued =>
    rw [mem_singleton.1 hu] at hk
    exact Or.inl hk
  | _ =>
    rw [mem_singleton.1 hu] at hk
    cases hk

/-- The counter is lowered by who raised it. -/
theorem TaskStep.progress_eq (h : TaskStep P s t s' born) :
    s'.progress - total counted born = s.progress - t.counted := by
  cases h with
  | store | remove => simp [counted, assign]
  | _ => simp [counted]

/-- A new call of `waitForIdle` awaits what has returned. -/
theorem TaskStep.awaits_cases (h : TaskStep P s t s' born) {u : TaskThread α β} (hu : u ∈ born)
    (hk : k ∈ u.awaits) : k ∈ t.awaits ∨ k ∈ s.returned := by
  cases h with
  | issue | bring =>
    rcases mem_cons.1 hu with rfl | hu
    · cases hk
    · rw [mem_singleton.1 hu] at hk
      cases hk
  | waitForIdle =>
    rcases mem_cons.1 hu with rfl | hu
    · exact Or.inr hk
    · rw [mem_singleton.1 hu] at hk
      cases hk
  | reject | post => exact absurd hu (notMem_zero u)
  | size | sizeAgain | progressAgain | sleep =>
    rw [mem_singleton.1 hu] at hk
    exact Or.inl hk
  | _ =>
    rw [mem_singleton.1 hu] at hk
    cases hk

/-- The size has been read as zero. -/
theorem TaskStep.reading_cases (h : TaskStep P s t s' born) (hu : .reading before ∈ born) :
    t = .sizing before ∧ P.size s.scheduler = 0 ∧ s' = s := by
  cases h with
  | size _ _ hsize =>
    obtain rfl := TaskThread.reading.inj (mem_singleton.1 hu)
    exact ⟨rfl, hsize, rfl⟩
  | _ => simp at hu

/-- The counter has been read as zero. -/
theorem TaskStep.idle_cases (h : TaskStep P s t s' born) (hu : .idle before ∈ born) :
    t = .reading before ∧ s.progress = 0 ∧ s' = s := by
  cases h with
  | progress _ _ hprogress =>
    obtain rfl := TaskThread.idle.inj (mem_singleton.1 hu)
    exact ⟨rfl, hprogress, rfl⟩
  | _ => simp at hu

/-- What an `enqueue` offers is its own descriptor. -/
theorem TaskStep.offered_cases (h : TaskStep P s t s' born) {x' : α} (hu : .enqueuing d x' ∈ born)
    {d' : Descriptor} (hd' : d' ∈ P.offered x') :
    d' = d ∨ ∃ x, t = .enqueuing d x ∧ d' ∈ P.offered x := by
  cases h with
  | store _ e =>
    obtain ⟨rfl, rfl⟩ := TaskThread.enqueuing.inj (mem_singleton.1 hu)
    rw [P.offered_enqueue] at hd'
    exact Or.inl (mem_singleton.1 hd')
  | enqueue _ e x _ _ hstep =>
    obtain ⟨rfl, rfl⟩ := TaskThread.enqueuing.inj (mem_singleton.1 hu)
    exact Or.inr ⟨x, rfl, mem_of_le (P.offered_step hstep) hd'⟩
  | _ => simp at hu

theorem Tracked.calls_step (h : Tracked P s (t ::ₘ others)) (hnext : TaskStep P s t s' born) :
    ((born + others).bind calls).Nodup ∧
      (∀ k ∈ (born + others).bind calls, k < s'.submits ∧ k ∉ s'.returned) ∧
      ∀ k ∈ s'.returned, k < s'.submits := by
  have hdistinct := h.distinct
  have hrunning := h.running
  rw [cons_bind] at hdistinct hrunning
  rw [add_bind]
  rcases hnext.calls_cases with ⟨hborn, ht, hsubmits, hreturned⟩ | ⟨d, rfl, rfl, hsubmits, hreturned⟩ |
    ⟨hborn, hsubmits, hreturned⟩
  · rw [ht, zero_add] at hdistinct hrunning
    rw [hborn, hsubmits, hreturned, singleton_add, nodup_cons]
    refine ⟨⟨fun hmem => ?_, hdistinct⟩, fun k hk => ?_, fun k hk => ?_⟩
    · exact absurd (hrunning _ hmem).1 (lt_irrefl _)
    · rcases mem_cons.1 hk with rfl | hk
      · exact ⟨Nat.lt_succ_self _, fun hmem => absurd (h.issued _ hmem) (lt_irrefl _)⟩
      · obtain ⟨hlt, hnot⟩ := hrunning k hk
        exact ⟨Nat.lt_succ_of_lt hlt, hnot⟩
    · exact Nat.lt_succ_of_lt (h.issued k hk)
  · obtain ⟨hfresh, hnodup⟩ := nodup_cons.1 hdistinct
    rw [hsubmits, hreturned, zero_bind, zero_add]
    refine ⟨hnodup, fun k hk => ?_, fun k hk => ?_⟩
    · obtain ⟨hlt, hnot⟩ := hrunning k (mem_cons_of_mem hk)
      refine ⟨hlt, fun hmem => ?_⟩
      rcases List.mem_cons.1 hmem with rfl | hmem
      · exact hfresh hk
      · exact hnot hmem
    · rcases List.mem_cons.1 hk with rfl | hk
      · exact (hrunning _ (mem_cons_self _ _)).1
      · exact h.issued k hk
  · have hle := Multiset.add_le_add_right (u := others.bind calls) hborn
    rw [hsubmits, hreturned]
    exact ⟨nodup_of_le hle hdistinct,
      fun k hk => hrunning k (mem_of_le hle hk), h.issued⟩

/-- With a scheduler that loses nothing, what is found is found again. -/
theorem Tracked.found_step (h : Tracked P s (t ::ₘ others)) (hlossless : P.Lossless)
    (hunused : Unused s t others) (hnext : TaskStep P s t s' born)
    (hk : Found P s (t ::ₘ others) k) : Found P s' (born + others) k := by
  rcases hk with ⟨d, hd, hcall⟩ | ⟨u, hu, hworks⟩ | hfinished
  · rcases hnext.tickets_cases with ⟨e, rfl, rfl, rfl⟩ | ⟨wid, e, task, rfl, hfind, rfl, rfl⟩ |
      ⟨-, -, heq⟩
    · left
      rw [tickets_store]
      exact ⟨d, mem_cons_of_mem hd, hcall⟩
    · rw [tickets_remove wid task] at hd
      rcases mem_cons.1 hd with rfl | hd
      · have htask := h.titled.found hfind
        refine Or.inr (Or.inl ⟨.counting wid d task, ?_, ?_⟩)
        · exact mem_add.2 (Or.inl (mem_singleton_self _))
        · rw [← hcall, htask]
          rfl
      · exact Or.inl ⟨d, hd, hcall⟩
    · left
      refine ⟨d, ?_, hcall⟩
      rcases heq hlossless with heq | ⟨wid, e, rfl, hnone⟩
      · rwa [tickets_add, heq, ← tickets_cons]
      · have hmem : e ∈ tickets P s (.removing wid e ::ₘ others) := by
          rw [tickets_remove wid 0]
          exact mem_cons_self _ _
        have hstored := h.titled.stored e hmem
        rw [hnone] at hstored
        cases hstored
  · rcases mem_cons.1 hu with rfl | hu
    · rcases hnext.works_cases hworks with ⟨v, hv, hworks⟩ | hdone
      · exact Or.inr (Or.inl ⟨v, mem_add.2 (Or.inl hv), hworks⟩)
      · exact Or.inr (Or.inr hdone)
    · exact Or.inr (Or.inl ⟨u, mem_add.2 (Or.inr hu), hworks⟩)
  · exact Or.inr (Or.inr (hnext.finished_mono hfinished))

/-- A stored closure has a ticket, and so is found. -/
theorem Tracked.posted_step (h : Tracked P s (t ::ₘ others)) (hlossless : P.Lossless)
    (hunused : Unused s t others) (hnext : TaskStep P s t s' born)
    (hk : k ∈ s'.returned ∨ ∃ u ∈ born + others, u.posts = some k) :
    Found P s' (born + others) k := by
  have hold : k ∈ s.returned ∨ (∃ u ∈ t ::ₘ others, u.posts = some k) ∨
      ∃ d, t = .storing d ∧ d.call = k := by
    rcases hk with hk | ⟨u, hu, hposts⟩
    · rcases hnext.calls_cases with ⟨-, -, -, hreturned⟩ | ⟨d, rfl, -, -, hreturned⟩ |
        ⟨-, -, hreturned⟩
      · exact Or.inl (hreturned ▸ hk)
      · rw [hreturned] at hk
        rcases List.mem_cons.1 hk with rfl | hk
        · exact Or.inr (Or.inl ⟨_, mem_cons_self _ _, rfl⟩)
        · exact Or.inl hk
      · exact Or.inl (hreturned ▸ hk)
    · rcases mem_add.1 hu with hu | hu
      · rcases hnext.posts_cases ⟨u, hu, hposts⟩ with ht | hstores
        · exact Or.inr (Or.inl ⟨t, mem_cons_self _ _, ht⟩)
        · exact Or.inr (Or.inr hstores)
      · exact Or.inr (Or.inl ⟨u, mem_cons_of_mem hu, hposts⟩)
  rcases hold with hreturned | hposts | ⟨d, rfl, hcall⟩
  · exact h.found_step hlossless hunused hnext (h.found k (Or.inl hreturned))
  · exact h.found_step hlossless hunused hnext (h.found k (Or.inr hposts))
  · cases hnext with
    | store =>
      left
      rw [tickets_store]
      exact ⟨d, mem_cons_self _ _, hcall⟩

/-- A call that is under way has not returned: an awaited task is not offered again. -/
theorem Tracked.not_offered {threads : Multiset (TaskThread α β)} (h : Tracked P s threads)
    {d' : Descriptor} {x : α} (ht : .enqueuing d x ∈ threads) (hd' : d' ∈ P.offered x) :
    d'.call ∉ s.returned := by
  rw [h.offered d x ht d' hd']
  exact (h.running d.call (mem_bind.2 ⟨_, ht, mem_singleton_self _⟩)).2

/-- The counter is at least the part of any thread. -/
theorem TaskThread.counted_nonneg (t : TaskThread α β) : 0 ≤ t.counted := by
  cases t <;> simp [counted]

/-- At the second read: what is awaited is not in the scheduler, nobody has it in transit or runs
it, so it is done. -/
theorem Tracked.all_finished (h : Tracked P s (.reading before ::ₘ others)) (hzero : s.progress = 0)
    (htransit : ∀ u ∈ others, ∀ d ∈ u.transit P, d.call ∉ before) :
    ∀ k ∈ before, k ∈ s.finished := by
  intro k hk
  have hself : .reading before ∈ (.reading before : TaskThread α β) ::ₘ others :=
    mem_cons_self _ _
  have hreturned : k ∈ s.returned := h.awaited _ hself k hk
  have hothers : ∀ u ∈ (.reading before : TaskThread α β) ::ₘ others,
      ∀ d ∈ u.transit P, d.call ∉ before := by
    intro u hu d hd
    rcases mem_cons.1 hu with rfl | hu
    · exact absurd hd (notMem_zero d)
    · exact htransit u hu d hd
  rcases h.found k (Or.inl hreturned) with ⟨d, hd, hcall⟩ | ⟨u, hu, hworks⟩ | hfinished
  · rcases mem_add.1 hd with hheld | hd
    · exact absurd (hcall ▸ hk) (h.reading before hself d hheld)
    · obtain ⟨u, hu, hd⟩ := mem_bind.1 hd
      cases u with
      | enqueuing e x => exact absurd (hcall ▸ hreturned) (h.not_offered hu hd)
      | taking | removing => exact absurd (hcall ▸ hk) (hothers _ hu d hd)
      | _ => exact absurd hd (notMem_zero d)
  · have hcount := le_total_of_mem TaskThread.counted_nonneg hu
    rw [← h.progress, hzero] at hcount
    cases u with
    | counting wid d task =>
      have htask := h.titled.own _ hu d task rfl
      have hnot := hothers _ hu d (mem_singleton_self d)
      rw [htask, Option.some.inj hworks] at hnot
      exact absurd hk hnot
    | starting | executing => exact absurd hcount (by simp [counted])
    | _ => cases hworks
  · exact hfinished

theorem Tracked.step (h : Tracked P s (t ::ₘ others)) (hlossless : P.Lossless)
    (hseen : Seen P s t others) (hnext : TaskStep P s t s' born) :
    Tracked P s' (born + others) := by
  obtain ⟨hunused, hsize, hcounter⟩ := hseen
  have hmem : ∀ {u}, u ∈ others → u ∈ t ::ₘ others := mem_cons_of_mem
  have hself : t ∈ t ::ₘ others := mem_cons_self _ _
  obtain ⟨hdistinct, hrunning, hissued⟩ := h.calls_step hnext
  have hreturned : ∀ k ∈ s.returned, k ∈ s'.returned := by
    intro k hk
    rcases hnext.calls_cases with ⟨-, -, -, heq⟩ | ⟨d, -, -, -, heq⟩ | ⟨-, -, heq⟩
    · exact heq ▸ hk
    · exact heq ▸ List.mem_cons_of_mem _ hk
    · exact heq ▸ hk
  constructor
  · exact h.titled.step hunused hnext
  · exact hdistinct
  · exact hrunning
  · exact hissued
  · intro d x hu d' hd'
    rcases mem_add.1 hu with hu | hu
    · rcases hnext.offered_cases hu hd' with heq | ⟨y, rfl, hd'⟩
      · exact heq
      · exact h.offered d y hself d' hd'
    · exact h.offered d x (hmem hu) d' hd'
  · exact fun k hk => h.posted_step hlossless hunused hnext hk
  · have hbefore := h.progress
    have hstep := hnext.progress_eq
    rw [total_cons] at hbefore
    rw [total_add]
    omega
  · intro u hu k hk
    refine hreturned k ?_
    rcases mem_add.1 hu with hu | hu
    · rcases hnext.awaits_cases hu hk with hk | hk
      · exact h.awaited t hself k hk
      · exact hk
    · exact h.awaited u (hmem hu) k hk
  · intro before hu d hd
    rcases mem_add.1 hu with hu | hu
    · obtain ⟨rfl, hzero, rfl⟩ := hnext.reading_cases hu
      exact hsize before rfl hzero d hd
    · rcases hnext.held_cases hd with hd | ⟨e, x, rfl, hd⟩
      · exact h.reading before (hmem hu) d hd
      · intro hbefore
        exact h.not_offered hself hd (h.awaited _ (hmem hu) _ hbefore)
  · intro before hu k hk
    rcases mem_add.1 hu with hu | hu
    · obtain ⟨rfl, hzero, rfl⟩ := hnext.idle_cases hu
      exact h.all_finished hzero (hcounter before rfl hzero) k hk
    · exact hnext.finished_mono (h.idle before (hmem hu) k hk)

theorem calls_start (workers clients callers : Nat) :
    (taskStart P workers clients callers).threads.bind calls = 0 := by
  refine eq_zero_of_forall_notMem fun k hk => ?_
  obtain ⟨t, ht, hk⟩ := mem_bind.1 hk
  obtain ⟨wid, rfl⟩ | rfl | rfl := mem_taskStart ht <;> exact notMem_zero k hk

theorem tracked_start (workers clients callers : Nat) :
    Tracked P (taskStart P workers clients callers).shared
      (taskStart P workers clients callers).threads where
  titled := titled_start workers clients callers
  distinct := by
    rw [calls_start]
    exact nodup_zero
  running := by
    rw [calls_start]
    exact fun k hk => absurd hk (notMem_zero k)
  issued _ hk := absurd hk List.not_mem_nil
  offered d x ht := by
    obtain ⟨wid, heq⟩ | heq | heq := mem_taskStart ht <;> cases heq
  found k hk := by
    rcases hk with hk | ⟨t, ht, hposts⟩
    · exact absurd hk List.not_mem_nil
    · obtain ⟨wid, rfl⟩ | rfl | rfl := mem_taskStart ht <;> cases hposts
  progress := by
    rw [total_eq_zero fun t ht => ?_]
    · rfl
    · obtain ⟨wid, rfl⟩ | rfl | rfl := mem_taskStart ht <;> rfl
  awaited t ht k hk := by
    obtain ⟨wid, rfl⟩ | rfl | rfl := mem_taskStart ht <;> cases hk
  reading before ht := by
    obtain ⟨wid, heq⟩ | heq | heq := mem_taskStart ht <;> cases heq
  idle before ht := by
    obtain ⟨wid, heq⟩ | heq | heq := mem_taskStart ht <;> cases heq

/-- With a scheduler that loses nothing: when `waitForIdle` returns, every task is done whose
`submit` had returned before it was called. -/
theorem idle_means_finished {workers clients callers : Nat}
    {c : Config (TaskPool σ) (TaskThread α β)} (hlossless : P.Lossless)
    (h : ReachableWhere (Seen P) (TaskStep P) (taskStart P workers clients callers) c)
    {before : List Nat} (hidle : .idle before ∈ c.threads) : ∀ k ∈ before, k ∈ c.shared.finished := by
  have htracked : Tracked P c.shared c.threads :=
    h.invariant (tracked_start workers clients callers)
      fun _ _ _ _ _ htracked => htracked.step hlossless
  exact htracked.idle before hidle

/-- A scheduler whose size is zero only when it is empty has nothing awaited then. -/
theorem seen_of_exact (hexact : P.Exact) (hunused : Unused s t others)
    (hcounter : ∀ before, t = .reading before → s.progress = 0 →
      ∀ u ∈ others, ∀ d ∈ u.transit P, d.call ∉ before) : Seen P s t others := by
  refine ⟨hunused, fun before _ hzero d hd => ?_, hcounter⟩
  rw [hexact _ hzero] at hd
  exact absurd hd (notMem_zero d)

/-- The pool when the first `submit` has returned. -/
def afterSubmit : TaskPool (List Descriptor) :=
  TaskPool.assign { create fifo with
    nextTaskId := 2, submits := 1, returned := [0], scheduler := [⟨1, 0⟩] } 1 (some 0)

/-- A task is submitted, the worker is about to take it, and a caller waits for it. -/
theorem submitted_one {guard : Guard (TaskPool (List Descriptor))
    (TaskThread (Option Descriptor) (Option Descriptor))}
    (hguard : ∀ s t others, Seen fifo s t others → guard s t others) :
    ReachableWhere guard (TaskStep fifo) (taskStart fifo 1 1 1)
      ⟨afterSubmit, {.taking 0 none, .sizing [0], .caller, .client}⟩ := by
  have hother : ∀ s t others, (∀ d, t ≠ .storing d) → (∀ before, t ≠ .reading before) →
      guard s t others := by
    intro s t others hstoring hreading
    refine hguard s t others (seen_of_exact (FifoScheduler.exact _) ?_ ?_)
    · exact fun d heq => absurd heq (hstoring d)
    · exact fun before heq => absurd heq (hreading before)
  have hstart : ReachableWhere guard (TaskStep fifo) (taskStart fifo 1 1 1)
      ⟨create fifo, {.waiting 0, .client, .caller}⟩ := Relation.ReflTransGen.refl
  let rest : Multiset (TaskThread (Option Descriptor) (Option Descriptor)) :=
    {.client, .waiting 0, .caller}
  have hissue := hstart.turn {.waiting 0, .caller} (by decide) (hother _ .client _ nofun nofun)
    (.issue _)
  have hadmits := hissue.turn rest rfl (hother _ _ _ nofun nofun) (.admits _ _ _ ⟨rfl, rfl⟩)
  have hstore := hadmits.turn rest rfl (hguard _ _ _ (seen_of_exact (FifoScheduler.exact _)
    (by rintro d ⟨⟩; rfl) nofun)) (.store _ _)
  have hpush := hstore.turn rest rfl (hother _ _ _ nofun nofun)
    (.enqueue _ _ _ _ _ ⟨_, rfl, rfl, rfl⟩)
  have hpushed := hpush.turn rest rfl (hother _ _ _ nofun nofun) (.enqueued _ _ _ rfl)
  have hpost := hpushed.turn rest rfl (hother _ _ _ nofun nofun) (.post _ _)
  have hcall := hpost.turn {.client, .waiting 0} (by decide) (hother _ .caller _ nofun nofun)
    (.waitForIdle _)
  exact hcall.turn {.sizing [0], .caller, .client} (by decide)
    (hother _ (.waiting 0) _ nofun nofun) (.wait _ 0 (by decide))

/-- The worker takes the task; the caller then sees an empty scheduler and nobody running. -/
theorem idle_too_early : ∃ c, Reachable (TaskStep fifo) (taskStart fifo 1 1 1) c ∧
    .idle [0] ∈ c.threads ∧ 0 ∉ c.shared.finished := by
  have hone : Reachable (TaskStep fifo) (taskStart fifo 1 1 1)
      ⟨afterSubmit, {.taking 0 none, .sizing [0], .caller, .client}⟩ :=
    submitted_one fun _ _ _ _ => trivial
  have htake := hone.turn {.sizing [0], .caller, .client} rfl
    (.take _ 0 _ _ _ ⟨⟨1, 0⟩, rfl, rfl, rfl⟩)
  have hsize := htake.turn {.taking 0 (some ⟨1, 0⟩), .caller, .client} (by decide)
    (.size _ [0] rfl)
  have hidle := hsize.turn {.taking 0 (some ⟨1, 0⟩), .caller, .client} rfl (.progress _ _ rfl)
  exact ⟨_, hidle, mem_add.2 (Or.inl (mem_singleton_self _)), List.not_mem_nil⟩

/-- The caller looks when the worker is through. -/
theorem idle_means_finished_one : ∃ c,
    ReachableWhere (Seen fifo) (TaskStep fifo) (taskStart fifo 1 1 1) c ∧
      .idle [0] ∈ c.threads ∧ ∀ k ∈ [0], k ∈ c.shared.finished := by
  have hother : ∀ s t others, (∀ d, t ≠ .storing d) → (∀ before, t ≠ .reading before) →
      Seen fifo s t others := fun s t others hstoring hreading =>
    seen_of_exact (FifoScheduler.exact _) (fun d heq => absurd heq (hstoring d))
      fun before heq => absurd heq (hreading before)
  have hone : ReachableWhere (Seen fifo) (TaskStep fifo) (taskStart fifo 1 1 1)
      ⟨afterSubmit, {.taking 0 none, .sizing [0], .caller, .client}⟩ :=
    submitted_one fun _ _ _ hseen => hseen
  let rest : Multiset (TaskThread (Option Descriptor) (Option Descriptor)) :=
    {.sizing [0], .caller, .client}
  have htake := hone.turn rest rfl (hother _ _ _ nofun nofun)
    (.take _ 0 _ _ _ ⟨⟨1, 0⟩, rfl, rfl, rfl⟩)
  have htook := htake.turn rest rfl (hother _ _ _ nofun nofun) (.took _ 0 _ ⟨1, 0⟩ rfl)
  have hremove := htook.turn rest rfl (hother _ _ _ nofun nofun) (.remove _ 0 _ 0 rfl)
  have hcount := hremove.turn rest rfl (hother _ _ _ nofun nofun) (.count _ 0 _ 0)
  have hstart := hcount.turn rest rfl (hother _ _ _ nofun nofun) (.start _ 0 _ 0)
  have hfinish := hstart.turn rest rfl (hother _ _ _ nofun nofun) (.finish _ 0 _ 0)
  have huncount := hfinish.turn rest rfl (hother _ _ _ nofun nofun) (.uncount _ 0 _)
  have hcomplete := huncount.turn rest rfl (hother _ _ _ nofun nofun) (.complete _ 0 _ _ rfl)
  have hsize := hcomplete.turn {.waiting 0, .caller, .client} (by decide)
    (hother _ (.sizing [0]) _ nofun nofun) (.size _ [0] rfl)
  have hnone : ∀ u ∈ ({.waiting 0, .caller, .client} : Multiset
      (TaskThread (Option Descriptor) (Option Descriptor))), u.transit fifo = 0 := by
    simp [transit]
  have hidle := hsize.turn {.waiting 0, .caller, .client} rfl
    (seen_of_exact (FifoScheduler.exact _) nofun
      fun _ _ _ u hu d hd => absurd (hnone u hu ▸ hd) (notMem_zero d))
    (.progress _ [0] rfl)
  have hmem : (TaskThread.idle [0] : TaskThread (Option Descriptor) (Option Descriptor)) ∈
      ({.idle [0]} + {.waiting 0, .caller, .client} : Multiset _) :=
    mem_add.2 (Or.inl (mem_singleton_self _))
  exact ⟨_, hidle, hmem, idle_means_finished (FifoScheduler.lossless fun _ => rfl) hidle hmem⟩

end JobThreads
