import OddBuilder.Threads.ThreadPool

/-!
# Closures and their descriptors

A descriptor that is being enqueued, in the scheduler or on its way to a worker
is a ticket for the closure under its id. As long as nothing is stored over a
closure, every ticket has its own.
-/

namespace JobThreads

open Interleaving Multiset

variable {σ α β : Type} {P : SchedPolicy σ α β}
variable {d : Descriptor} {task : Nat}

namespace TaskThread

/-- The descriptors of a thread whose closures are still in the table. -/
def tickets (P : SchedPolicy σ α β) : TaskThread α β → Multiset Descriptor
  | .enqueuing _ x => P.offered x
  | .taking _ y => P.taken y
  | .removing _ d => {d}
  | _ => 0

/-- The worker has taken this closure for this descriptor. -/
def hands : TaskThread α β → Option (Descriptor × Nat)
  | .counting _ d task => some (d, task)
  | .starting _ d task => some (d, task)
  | .executing _ d task => some (d, task)
  | _ => none

end TaskThread

open TaskThread TaskPool

/-- The tickets of the scheduler and of all threads. -/
def tickets (P : SchedPolicy σ α β) (s : TaskPool σ) (threads : Multiset (TaskThread α β)) :
    Multiset Descriptor :=
  P.held s.scheduler + threads.bind (TaskThread.tickets P)

/-- A store puts a closure where there is none. -/
def Unused : Guard (TaskPool σ) (TaskThread α β) := fun s t _ =>
  ∀ d, t = .storing d → s.find d.id = none

structure Titled (P : SchedPolicy σ α β) (s : TaskPool σ) (threads : Multiset (TaskThread α β)) :
    Prop where
  ids : ((tickets P s threads).map (·.id)).Nodup
  stored : ∀ d ∈ tickets P s threads, s.find d.id = some d.call
  own : ∀ t ∈ threads, ∀ d task, t.hands = some (d, task) → d.call = task
  ran : ∀ entry ∈ s.ran, entry.1 = entry.2

variable {s s' : TaskPool σ} {t : TaskThread α β} {born others : Multiset (TaskThread α β)}

/-- A step stores a closure, removes one, or leaves the table and makes no ticket; a ticket is lost
in the scheduler, or by a worker that finds nothing. -/
theorem TaskStep.tickets_cases (h : TaskStep P s t s' born) :
    (∃ d, t = .storing d ∧ s' = s.assign d.id (some d.call) ∧
        born = {.enqueuing d (P.enqueue d)}) ∨
      (∃ wid d task, t = .removing wid d ∧ s.find d.id = some task ∧
        s' = s.assign d.id none ∧ born = {.counting wid d task}) ∨
      ((∀ id, s'.find id = s.find id) ∧
        P.held s'.scheduler + born.bind (TaskThread.tickets P) ≤
          P.held s.scheduler + t.tickets P ∧
        (P.Lossless → (P.held s'.scheduler + born.bind (TaskThread.tickets P) =
          P.held s.scheduler + t.tickets P) ∨
            ∃ wid d, t = .removing wid d ∧ s.find d.id = none)) := by
  have hsame : ∀ {s'' : TaskPool σ} {u : TaskThread α β} {born' : Multiset (TaskThread α β)},
      P.held s''.scheduler + born'.bind (TaskThread.tickets P) =
        P.held s.scheduler + u.tickets P →
      P.held s''.scheduler + born'.bind (TaskThread.tickets P) ≤
        P.held s.scheduler + u.tickets P ∧
      (P.Lossless → (P.held s''.scheduler + born'.bind (TaskThread.tickets P) =
        P.held s.scheduler + u.tickets P) ∨ ∃ wid d, u = .removing wid d ∧ s.find d.id = none) :=
    fun heq => ⟨heq.le, fun _ => Or.inl heq⟩
  cases h with
  | store _ d => exact Or.inl ⟨d, rfl, rfl, rfl⟩
  | remove _ wid d task hfind => exact Or.inr (Or.inl ⟨wid, d, task, rfl, hfind, rfl, rfl⟩)
  | enqueue _ d x s x' hstep =>
    refine Or.inr (Or.inr ⟨fun _ => rfl, ?_, fun hlossless => Or.inl ?_⟩)
    · simpa [TaskThread.tickets] using P.held_enqueue hstep
    · simpa [TaskThread.tickets] using hlossless.enqueue hstep
  | take _ wid y s y' hstep =>
    refine Or.inr (Or.inr ⟨fun _ => rfl, ?_, fun hlossless => Or.inl ?_⟩)
    · simpa [TaskThread.tickets] using P.held_next hstep
    · simpa [TaskThread.tickets] using hlossless.next hstep
  | removeNone _ wid d hfind =>
    refine Or.inr (Or.inr ⟨fun _ => rfl, ?_, fun _ => Or.inr ⟨wid, d, rfl, hfind⟩⟩)
    simp [TaskThread.tickets]
  | admits _ d s hadmits =>
    refine Or.inr (Or.inr ⟨fun _ => rfl, hsame ?_⟩)
    simp [TaskThread.tickets, P.held_admits hadmits]
  | reject _ d s hadmits =>
    refine Or.inr (Or.inr ⟨fun _ => rfl, hsame ?_⟩)
    simp [TaskThread.tickets, P.held_admits hadmits]
  | complete _ wid d s hcomplete =>
    refine Or.inr (Or.inr ⟨fun _ => rfl, hsame ?_⟩)
    simp [TaskThread.tickets, P.held_complete hcomplete]
  | enqueued _ d x hx =>
    refine Or.inr (Or.inr ⟨fun _ => rfl, hsame ?_⟩)
    simp [TaskThread.tickets, P.offered_enqueued hx]
  | wait _ wid hwork =>
    refine Or.inr (Or.inr ⟨fun _ => rfl, hsame ?_⟩)
    simp [TaskThread.tickets, P.taken_next]
  | took _ wid y d hresult =>
    refine Or.inr (Or.inr ⟨fun _ => rfl, hsame ?_⟩)
    simp [TaskThread.tickets, P.taken_result hresult]
  | tookNone _ wid y hresult =>
    refine Or.inr (Or.inr ⟨fun _ => rfl, hsame ?_⟩)
    simp [TaskThread.tickets, P.taken_result hresult]
  | _ =>
    refine Or.inr (Or.inr ⟨fun _ => rfl, hsame ?_⟩)
    simp [TaskThread.tickets]

theorem tickets_cons : tickets P s (t ::ₘ others) =
    P.held s.scheduler + t.tickets P + others.bind (TaskThread.tickets P) := by
  rw [tickets, cons_bind, add_assoc]

theorem tickets_add : tickets P s (born + others) =
    P.held s.scheduler + born.bind (TaskThread.tickets P) +
      others.bind (TaskThread.tickets P) := by
  rw [tickets, add_bind, add_assoc]

/-- A store makes the ticket of its closure. -/
theorem tickets_store (d : Descriptor) :
    tickets P (s.assign d.id (some d.call)) ({.enqueuing d (P.enqueue d)} + others) =
      d ::ₘ tickets P s (.storing d ::ₘ others) := by
  rw [tickets_add, tickets_cons, singleton_bind]
  change P.held s.scheduler + P.offered (P.enqueue d) + others.bind (TaskThread.tickets P) =
    d ::ₘ (P.held s.scheduler + 0 + others.bind (TaskThread.tickets P))
  rw [P.offered_enqueue, add_zero, add_right_comm, ← singleton_add, add_comm]

/-- A removal takes it in. -/
theorem tickets_remove (wid task : Nat) (d : Descriptor) :
    tickets P s (.removing wid d ::ₘ others) =
      d ::ₘ tickets P (s.assign d.id none) ({.counting wid d task} + others) := by
  rw [tickets_add, tickets_cons]
  change P.held s.scheduler + {d} + others.bind (TaskThread.tickets P) =
    d ::ₘ (P.held s.scheduler + 0 + others.bind (TaskThread.tickets P))
  rw [add_zero, add_right_comm, ← singleton_add, add_comm]

/-- A worker that has a closure got it by a removal. -/
theorem TaskStep.hands_cases (h : TaskStep P s t s' born) {u : TaskThread α β} (hu : u ∈ born)
    (hhands : u.hands = some (d, task)) :
    t.hands = some (d, task) ∨ ∃ wid, t = .removing wid d ∧ s.find d.id = some task := by
  cases h with
  | issue | bring | waitForIdle =>
    rcases mem_cons.1 hu with rfl | hu
    · cases hhands
    · rw [mem_singleton.1 hu] at hhands
      cases hhands
  | reject | post => exact absurd hu (notMem_zero u)
  | remove _ wid _ _ hfind =>
    rw [mem_singleton.1 hu] at hhands
    cases hhands
    exact Or.inr ⟨wid, rfl, hfind⟩
  | count | start =>
    rw [mem_singleton.1 hu] at hhands
    exact Or.inl hhands
  | _ =>
    rw [mem_singleton.1 hu] at hhands
    cases hhands

/-- Only a start is recorded. -/
theorem TaskStep.ran_cases (h : TaskStep P s t s' born) {entry : Nat × Nat} (hentry : entry ∈ s'.ran) :
    entry ∈ s.ran ∨ ∃ d, t.hands = some (d, entry.2) ∧ d.call = entry.1 := by
  cases h with
  | start _ wid d task =>
    rcases List.mem_cons.1 hentry with rfl | hentry
    · exact Or.inr ⟨d, rfl, rfl⟩
    · exact Or.inl hentry
  | _ => exact Or.inl hentry

/-- Fewer tickets for the same table. -/
theorem Titled.tickets_mono (h : Titled P s (t ::ₘ others)) (hfind : ∀ id, s'.find id = s.find id)
    (hle : P.held s'.scheduler + born.bind (TaskThread.tickets P) ≤
      P.held s.scheduler + t.tickets P) :
    ((tickets P s' (born + others)).map (·.id)).Nodup ∧
      ∀ d ∈ tickets P s' (born + others), s'.find d.id = some d.call := by
  have hall : tickets P s' (born + others) ≤ tickets P s (t ::ₘ others) := by
    rw [tickets_add, tickets_cons]
    exact Multiset.add_le_add_right hle
  constructor
  · exact nodup_of_le (map_le_map hall) h.ids
  · intro d hd
    rw [hfind]
    exact h.stored d (mem_of_le hall hd)

/-- A ticket for a closure that is stored where there was none. -/
theorem Titled.store (h : Titled P s (.storing d ::ₘ others)) (hfree : s.find d.id = none) :
    ((tickets P (s.assign d.id (some d.call))
      ({.enqueuing d (P.enqueue d)} + others)).map (·.id)).Nodup ∧
    ∀ d' ∈ tickets P (s.assign d.id (some d.call)) ({.enqueuing d (P.enqueue d)} + others),
      (s.assign d.id (some d.call)).find d'.id = some d'.call := by
  have hne : ∀ d' ∈ tickets P s (.storing d ::ₘ others), d'.id ≠ d.id := by
    intro d' hd' heq
    have hfound := h.stored d' hd'
    rw [heq, hfree] at hfound
    cases hfound
  rw [tickets_store]
  constructor
  · rw [map_cons, nodup_cons]
    refine ⟨fun hmem => ?_, h.ids⟩
    obtain ⟨d', hd', heq⟩ := mem_map.1 hmem
    exact hne d' hd' heq
  · intro d' hd'
    rcases mem_cons.1 hd' with rfl | hd'
    · exact find_assign s _ _
    · rw [find_assign_of_ne s _ (hne d' hd')]
      exact h.stored d' hd'

/-- A ticket and its closure go together. -/
theorem Titled.remove {wid : Nat} (h : Titled P s (.removing wid d ::ₘ others)) :
    ((tickets P (s.assign d.id none) ({.counting wid d task} + others)).map (·.id)).Nodup ∧
    ∀ d' ∈ tickets P (s.assign d.id none) ({.counting wid d task} + others),
      (s.assign d.id none).find d'.id = some d'.call := by
  have hids := h.ids
  have hstored := h.stored
  rw [tickets_remove wid task, map_cons, nodup_cons] at hids
  rw [tickets_remove wid task] at hstored
  refine ⟨hids.2, fun d' hd' => ?_⟩
  have hne : d'.id ≠ d.id := fun heq => hids.1 (mem_map.2 ⟨d', hd', heq⟩)
  rw [find_assign_of_ne s _ hne]
  exact hstored d' (mem_cons_of_mem hd')

/-- What a worker finds under its id is the closure of its descriptor. -/
theorem Titled.found {wid : Nat} (h : Titled P s (.removing wid d ::ₘ others))
    (hfind : s.find d.id = some task) : d.call = task := by
  have hmem : d ∈ tickets P s (.removing wid d ::ₘ others) := by
    rw [tickets_cons]
    simp [TaskThread.tickets]
  rw [h.stored d hmem] at hfind
  exact Option.some.inj hfind

theorem Titled.step (h : Titled P s (t ::ₘ others)) (hunused : Unused s t others)
    (hnext : TaskStep P s t s' born) : Titled P s' (born + others) := by
  have hown := h.own t (mem_cons_self _ _)
  have htitles : ((tickets P s' (born + others)).map (·.id)).Nodup ∧
      ∀ d ∈ tickets P s' (born + others), s'.find d.id = some d.call := by
    rcases hnext.tickets_cases with ⟨d, rfl, rfl, rfl⟩ | ⟨wid, d, task, rfl, -, rfl, rfl⟩ |
      ⟨hfind, hle, -⟩
    · exact h.store (hunused d rfl)
    · exact h.remove
    · exact h.tickets_mono hfind hle
  constructor
  · exact htitles.1
  · exact htitles.2
  · intro u hu d task hhands
    rcases mem_add.1 hu with hu | hu
    · rcases hnext.hands_cases hu hhands with hhad | ⟨wid, rfl, hfind⟩
      · exact hown d task hhad
      · exact h.found hfind
    · exact h.own u (mem_cons_of_mem hu) d task hhands
  · intro entry hentry
    rcases hnext.ran_cases hentry with hold | ⟨d, hhands, hcall⟩
    · exact h.ran entry hold
    · rw [← hcall]
      exact hown d entry.2 hhands

/-- What the threads of a new pool have. -/
theorem mem_taskStart {workers clients callers : Nat}
    (ht : t ∈ (taskStart P workers clients callers).threads) :
    (∃ wid, t = .waiting wid) ∨ t = .client ∨ t = .caller := by
  simp only [taskStart, mem_add, mem_map] at ht
  rcases ht with (⟨wid, -, rfl⟩ | ht) | ht
  · exact Or.inl ⟨wid, rfl⟩
  · exact Or.inr (Or.inl (eq_of_mem_replicate ht))
  · exact Or.inr (Or.inr (eq_of_mem_replicate ht))

theorem tickets_start (workers clients callers : Nat) :
    tickets P (taskStart P workers clients callers).shared
      (taskStart P workers clients callers).threads = 0 := by
  refine eq_zero_of_forall_notMem fun d hd => ?_
  rcases mem_add.1 hd with hd | hd
  · have hheld : P.held (taskStart P workers clients callers).shared.scheduler = 0 := P.held_create
    rw [hheld] at hd
    exact notMem_zero d hd
  · obtain ⟨t, ht, hd⟩ := mem_bind.1 hd
    obtain ⟨wid, rfl⟩ | rfl | rfl := mem_taskStart ht <;> exact notMem_zero d hd

theorem titled_start (workers clients callers : Nat) :
    Titled P (taskStart P workers clients callers).shared
      (taskStart P workers clients callers).threads where
  ids := by
    rw [tickets_start]
    exact nodup_zero
  stored := by
    rw [tickets_start]
    exact fun d hd => absurd hd (notMem_zero d)
  own t ht d task hhands := by
    obtain ⟨wid, rfl⟩ | rfl | rfl := mem_taskStart ht <;> cases hhands
  ran _ hentry := absurd hentry List.not_mem_nil

theorem titled_of_reachable {workers clients callers : Nat} {c : Config (TaskPool σ) (TaskThread α β)}
    (h : ReachableWhere Unused (TaskStep P) (taskStart P workers clients callers) c) :
    Titled P c.shared c.threads :=
  h.invariant (titled_start workers clients callers) fun _ _ _ _ _ htitled => htitled.step

/-- A closure stays where it is, unless the worker removes it that has its descriptor. -/
def Stays (s : TaskPool σ) (t : TaskThread α β) (s' : TaskPool σ)
    (born : Multiset (TaskThread α β)) : Prop :=
  ∀ id task, s.find id = some task → s'.find id = some task ∨
    ∃ wid, t = .removing wid ⟨id, task⟩ ∧ born = {.counting wid ⟨id, task⟩ task}

theorem Titled.stays (h : Titled P s (t ::ₘ others)) (hunused : Unused s t others)
    (hnext : TaskStep P s t s' born) : Stays s t s' born := by
  intro id task hstored
  rcases hnext.tickets_cases with ⟨d, rfl, rfl, rfl⟩ | ⟨wid, d, found, rfl, hfind, rfl, rfl⟩ |
    ⟨hfind, -⟩
  · left
    have hne : id ≠ d.id := by
      rintro rfl
      rw [hunused d rfl] at hstored
      cases hstored
    rw [find_assign_of_ne s _ hne]
    exact hstored
  · by_cases hid : id = d.id
    · right
      subst hid
      have hcall := h.found hfind
      rw [hfind] at hstored
      obtain rfl := Option.some.inj hstored
      subst hcall
      exact ⟨wid, rfl, rfl⟩
    · left
      rw [find_assign_of_ne s _ hid]
      exact hstored
  · left
    rw [hfind]
    exact hstored

/-- When nothing is stored over a closure, every closure stays until the worker with its descriptor
removes it, and is run for no other. -/
theorem closures_kept {workers clients callers : Nat} {c : Config (TaskPool σ) (TaskThread α β)}
    (h : ReachableWhere Unused (TaskStep P) (taskStart P workers clients callers) c) :
    (∀ t s' born others, c.threads = t ::ₘ others → Unused c.shared t others →
      TaskStep P c.shared t s' born → Stays c.shared t s' born) ∧
    ∀ entry ∈ c.shared.ran, entry.1 = entry.2 := by
  have htitled := titled_of_reachable h
  refine ⟨fun t s' born others hthreads hunused hnext => ?_, htitled.ran⟩
  rw [hthreads] at htitled
  exact htitled.stays hunused hnext

/-- A scheduler that takes every descriptor. -/
abbrev fifo : SchedPolicy (List Descriptor) (Option Descriptor) (Option Descriptor) :=
  FifoScheduler fun _ => true

/-- The closure of a caller's descriptor, whose id is the first of the counter, is stored. -/
theorem stored_first {guard : Guard (TaskPool (List Descriptor))
    (TaskThread (Option Descriptor) (Option Descriptor))}
    (hguard : ∀ s t others, Unused s t others → guard s t others) :
    ReachableWhere guard (TaskStep fifo) (taskStart fifo 1 1 0)
      ⟨{ create fifo with submits := 1 }.assign 1 (some 0),
        {.enqueuing ⟨1, 0⟩ (some ⟨1, 0⟩), .client, .waiting 0}⟩ := by
  have hstart : ReachableWhere guard (TaskStep fifo) (taskStart fifo 1 1 0)
      ⟨create fifo, {.waiting 0, .client}⟩ := Relation.ReflTransGen.refl
  have hbring := hstart.turn {.waiting 0} (pair_comm _ _) (hguard _ _ _ nofun) (.bring _ 1)
  have hadmits := hbring.turn {.client, .waiting 0} rfl (hguard _ _ _ nofun)
    (.admits _ _ _ ⟨rfl, rfl⟩)
  refine hadmits.turn {.client, .waiting 0} rfl (hguard _ _ _ ?_) (.store _ _)
  rintro d ⟨⟩
  rfl

/-- The closure of call 1 is stored over it, and run for the descriptor of call 0. -/
theorem closure_replaced :
    (∃ c c', Reachable (TaskStep fifo) (taskStart fifo 1 1 0) c ∧ Step (TaskStep fifo) c c' ∧
      c.shared.find 1 = some 0 ∧ c'.shared.find 1 = some 1) ∧
    ∃ c, Reachable (TaskStep fifo) (taskStart fifo 1 1 0) c ∧ (0, 1) ∈ c.shared.ran := by
  have hfirst : Reachable (TaskStep fifo) (taskStart fifo 1 1 0)
      ⟨{ create fifo with submits := 1 }.assign 1 (some 0),
        {.enqueuing ⟨1, 0⟩ (some ⟨1, 0⟩), .client, .waiting 0}⟩ :=
    stored_first fun _ _ _ _ => trivial
  let first : TaskThread (Option Descriptor) (Option Descriptor) :=
    .enqueuing ⟨1, 0⟩ (some ⟨1, 0⟩)
  have hissue := hfirst.turn {first, .waiting 0} (cons_swap _ _ _) (.issue _)
  have hadmits := hissue.turn {.client, first, .waiting 0} rfl (.admits _ _ _ ⟨rfl, rfl⟩)
  have hstore := hadmits.turn {.client, first, .waiting 0} rfl (.store _ _)
  refine ⟨⟨_, _, hadmits, .turn {.client, first, .waiting 0} trivial (.store _ _), rfl, rfl⟩, ?_⟩
  -- The worker takes the first descriptor and finds the second closure.
  have hpush := hstore.turn {.client, .enqueuing ⟨1, 1⟩ (some ⟨1, 1⟩), .waiting 0} (by decide)
    (.enqueue _ ⟨1, 0⟩ (some ⟨1, 0⟩) _ _ ⟨_, rfl, rfl, rfl⟩)
  have hpushed := hpush.turn {.client, .enqueuing ⟨1, 1⟩ (some ⟨1, 1⟩), .waiting 0} rfl
    (.enqueued _ _ _ rfl)
  have hpost := hpushed.turn {.client, .enqueuing ⟨1, 1⟩ (some ⟨1, 1⟩), .waiting 0} rfl (.post _ _)
  have hwait := hpost.turn {.client, .enqueuing ⟨1, 1⟩ (some ⟨1, 1⟩)} (by decide)
    (.wait _ 0 (by decide))
  have htake := hwait.turn {.client, .enqueuing ⟨1, 1⟩ (some ⟨1, 1⟩)} rfl
    (.take _ 0 _ _ _ ⟨_, rfl, rfl, rfl⟩)
  have htook := htake.turn {.client, .enqueuing ⟨1, 1⟩ (some ⟨1, 1⟩)} rfl (.took _ 0 _ _ rfl)
  have hremove := htook.turn {.client, .enqueuing ⟨1, 1⟩ (some ⟨1, 1⟩)} rfl (.remove _ 0 _ 1 rfl)
  have hcount := hremove.turn {.client, .enqueuing ⟨1, 1⟩ (some ⟨1, 1⟩)} rfl (.count _ 0 _ 1)
  have hstarted := hcount.turn {.client, .enqueuing ⟨1, 1⟩ (some ⟨1, 1⟩)} rfl (.start _ 0 _ 1)
  exact ⟨_, hstarted, List.mem_cons_self⟩

/-- One task, stored under an unused id. -/
theorem closures_kept_first : ∃ c, ReachableWhere Unused (TaskStep fifo) (taskStart fifo 1 1 0) c ∧
    c.shared.find 1 = some 0 ∧
    (∀ t s' born others, c.threads = t ::ₘ others → Unused c.shared t others →
      TaskStep fifo c.shared t s' born → Stays c.shared t s' born) ∧
    ∀ entry ∈ c.shared.ran, entry.1 = entry.2 := by
  have hfirst := stored_first fun _ _ _ hunused => hunused
  exact ⟨_, hfirst, rfl, closures_kept hfirst⟩

end JobThreads
