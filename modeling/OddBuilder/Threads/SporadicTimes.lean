import OddBuilder.Threads.SporadicRuns

/-!
# Deadlines on one worker

A sporadic scheduler of capacity one and a worker that takes the next task as
soon as it is idle, and runs it for at most its cost without interruption. The
test counts the task that runs like a waiting one; but what is due before it has
to wait until it ends.
-/

namespace JobThreads

open Demand Multiset JobSporadicDescriptor

structure SporadicWorker where
  sched : JobSporadicScheduler := .create 1
  now : Int
  running : Option (JobSporadicDescriptor × Int) := none
  completed : List (JobSporadicDescriptor × Int) := []

inductive WorkerEvent where
  | submit (desc : JobSporadicDescriptor)
  | refuse (desc : JobSporadicDescriptor)
  | next (desc : JobSporadicDescriptor)
  | complete
  | pass (later : Int)

namespace SporadicWorker

variable {desc : JobSporadicDescriptor} {first : Int}

/-- The nanoseconds that a task runs for at most. -/
def cost (desc : JobSporadicDescriptor) : Int := 1000 * desc.wcet

/-- Time passes while a task may run, or while there is none. -/
inductive Step : SporadicWorker → WorkerEvent → SporadicWorker → Prop where
  | submit (w desc mid sched) (hwcet : 0 < desc.wcet)
      (hid : desc.id ∉ w.sched.counted.map (·.id))
      (hadmits : SporadicStep w.sched (.admits w.now (some desc) true) mid)
      (henqueue : SporadicStep mid (.enqueue w.now (some desc) true) sched) :
      Step w (.submit desc) { w with sched := sched }
  | refuse (w desc sched) (h : SporadicStep w.sched (.admits w.now (some desc) false) sched) :
      Step w (.refuse desc) { w with sched := sched }
  | next (w desc sched) (hidle : w.running = none) (h : SporadicStep w.sched (.next desc) sched) :
      Step w (.next desc) { w with sched := sched, running := some (desc, w.now) }
  | complete (w desc start sched) (hrunning : w.running = some (desc, start))
      (h : SporadicStep w.sched (.complete desc.id) sched) :
      Step w .complete
        { w with sched := sched, running := none, completed := (desc, w.now) :: w.completed }
  | pass (w later) (hlater : w.now ≤ later)
      (hrunning : ∀ desc start, w.running = some (desc, start) → later ≤ start + cost desc)
      (hidle : w.running = none → w.sched.queue = 0) : Step w (.pass later) { w with now := later }

/-- What can happen from the time `first` on, when all steps are of this kind. -/
inductive Run (kind : SporadicWorker → WorkerEvent → Prop) (first : Int) : SporadicWorker → Prop
  where
  | start : Run kind first { now := first }
  | step {w event w'} (h : Run kind first w) (hkind : kind w event) (hstep : Step w event w') :
      Run kind first w'

/-- No deadline is missed: not by a task that is completed, nor by one that is not yet. -/
def OnTime (w : SporadicWorker) : Prop :=
  (∀ task ∈ w.completed, task.2 ≤ task.1.deadline) ∧
    ∀ desc ∈ w.sched.counted, w.now ≤ desc.deadline

/-- The tasks due before the one that runs, and not before `desc`, can wait for its end. -/
def CanWait (w : SporadicWorker) (desc : JobSporadicDescriptor) : Prop :=
  ∀ running start, w.running = some (running, start) →
    ∀ task ∈ desc ::ₘ w.sched.queue, desc.deadline ≤ task.deadline →
      task.deadline < running.deadline →
        start + cost running +
          demand JobSporadicDescriptor.deadline cost (desc ::ₘ w.sched.queue) task.deadline ≤
            task.deadline

/-- Each task that is accepted lets the others wait. -/
def Waits (w : SporadicWorker) : WorkerEvent → Prop
  | .submit desc => w.CanWait desc
  | _ => True

open JobSporadicScheduler

/-- An accepted test in nanoseconds. -/
theorem inTime_of_feasible {now : Int} {outstanding : Multiset JobSporadicDescriptor}
    (h : Feasible 1 now outstanding desc) :
    InTime deadline cost now (desc ::ₘ outstanding) := by
  intro task htask
  obtain ⟨hdue⟩ := h task htask
  have hwhole : 1000 * microseconds (task.deadline - now) ≤ task.deadline - now := by
    have hmod := Int.tmod_nonneg 1000 (show 0 ≤ task.deadline - now by omega)
    have hdiv := Int.mul_tdiv_add_tmod (task.deadline - now) 1000
    unfold microseconds
    omega
  have hunit : demand deadline cost (desc ::ₘ outstanding) task.deadline =
      1000 * demandOf (desc ::ₘ outstanding) task.deadline := demand_mul 1000 _ _
  omega

/-- A task that is admitted and enqueued is in the queue, and it has passed the test. -/
theorem submitted {s mid t : JobSporadicScheduler} {now : Int} (hcapacity : s.capacity = 1)
    (hreserved : s.reserved = 0) (hpositive : ∀ d ∈ s.counted, 0 < d.wcet) (hwcet : 0 < desc.wcet)
    (hadmits : SporadicStep s (.admits now (some desc) true) mid)
    (henqueue : SporadicStep mid (.enqueue now (some desc) true) t) :
    t = { s with queue := desc ::ₘ s.queue } ∧
      InTime deadline cost now (desc ::ₘ s.counted) := by
  have hall : s.counted.filter (0 < ·.wcet) = s.counted := filter_eq_self.2 hpositive
  cases hadmits with
  | admits items _ _ _ _ hitems hcall =>
    obtain ⟨hnone, -⟩ | ⟨d, hd, ⟨hfree⟩ | ⟨-, hok, rfl⟩⟩ :=
      admit_cases (by omega) hitems hcall
    · cases hnone
    · obtain rfl := Option.some.inj hd
      omega
    · obtain rfl := Option.some.inj hd
      rw [hall, hcapacity] at hok
      refine ⟨?_, inTime_of_feasible (hok.1 rfl)⟩
      have hheld : (s.reserve desc).hasReserved desc.id = true := by
        simp [hasReserved, reserve]
      cases henqueue with
      | enqueue items _ _ _ _ hitems hcall =>
        obtain ⟨hnone, -⟩ | ⟨d, hd, ⟨-, -, rfl⟩ | ⟨hnot, -⟩⟩ :=
          enqueue_cases (show 0 < (s.reserve desc).capacity by rw [reserve, hcapacity]; decide)
            hitems hcall
        · cases hnone
        · obtain rfl := Option.some.inj hd
          simp [reserve, hreserved]
        · obtain rfl := Option.some.inj hd
          rw [hnot] at hheld
          cases hheld

/-- What the worker does: nothing, or a task that it will end in time. -/
inductive Works (w : SporadicWorker) : Prop where
  | idle (hrunning : w.running = none) (hinflight : w.sched.inflight = 0)
      (htime : InTime JobSporadicDescriptor.deadline cost w.now w.sched.queue)
  | busy (desc start) (hrunning : w.running = some (desc, start))
      (hinflight : w.sched.inflight = {desc}) (hstart : start ≤ w.now)
      (hnow : w.now ≤ start + cost desc) (hend : start + cost desc ≤ desc.deadline)
      (htime : InTime JobSporadicDescriptor.deadline cost (start + cost desc) w.sched.queue)

structure Served (w : SporadicWorker) : Prop where
  capacity : w.sched.capacity = 1
  reserved : w.sched.reserved = 0
  ids : (w.sched.counted.map (·.id)).Nodup
  positive : ∀ desc ∈ w.sched.counted, 0 < desc.wcet
  completed : ∀ task ∈ w.completed, task.2 ≤ task.1.deadline
  works : Works w

variable {w w' : SporadicWorker}

theorem Served.counted_eq (h : Served w) : w.sched.counted = w.sched.queue + w.sched.inflight := by
  rw [counted, h.reserved, map_zero, add_zero]

theorem Served.cost_nonneg (h : Served w) (hdesc : desc ∈ w.sched.counted) : 0 ≤ cost desc := by
  have := h.positive desc hdesc
  unfold cost
  omega

theorem Served.mem_queue (h : Served w) (hdesc : desc ∈ w.sched.queue) : desc ∈ w.sched.counted := by
  rw [h.counted_eq]
  exact mem_add.2 (Or.inl hdesc)

theorem Served.submit (h : Served w) {mid t : JobSporadicScheduler} (hwcet : 0 < desc.wcet)
    (hid : desc.id ∉ w.sched.counted.map (·.id))
    (hadmits : SporadicStep w.sched (.admits w.now (some desc) true) mid)
    (henqueue : SporadicStep mid (.enqueue w.now (some desc) true) t) (hwait : w.CanWait desc) :
    Served { w with sched := t } := by
  obtain ⟨rfl, htest⟩ := submitted h.capacity h.reserved h.positive hwcet hadmits henqueue
  have hcounted : counted { w.sched with queue := desc ::ₘ w.sched.queue } =
      desc ::ₘ w.sched.counted := by
    simp [counted]
  constructor
  · exact h.capacity
  · exact h.reserved
  · rw [hcounted, map_cons, nodup_cons]
    exact ⟨hid, h.ids⟩
  · rw [hcounted, forall_mem_cons]
    exact ⟨hwcet, h.positive⟩
  · exact h.completed
  · rcases h.works with ⟨hrunning, hinflight⟩ |
      ⟨running, start, hrunning, hinflight, hstart, hnow, hend, htime⟩
    · refine .idle hrunning hinflight ?_
      rwa [h.counted_eq, hinflight, add_zero] at htest
    · refine .busy running start hrunning hinflight hstart hnow hend ?_
      have hfree : start + cost running ≤ w.now + cost running := by omega
      refine InTime.arrive hfree htime (fun task htask => ?_) (hwait running start hrunning)
      have hswap : running ::ₘ desc ::ₘ w.sched.queue = desc ::ₘ w.sched.counted := by
        rw [h.counted_eq, hinflight, add_comm, singleton_add, cons_swap]
      rw [hswap]
      refine htest task ?_
      rw [← hswap]
      exact mem_cons_of_mem htask

theorem Served.next (h : Served w) (hidle : w.running = none) (htop : w.sched.Top desc) :
    Served { w with sched := w.sched.next desc, running := some (desc, w.now) } := by
  obtain ⟨hmem, hfirst⟩ := htop
  obtain ⟨rest, hrest⟩ := exists_cons_of_mem hmem
  rcases h.works with ⟨-, hinflight, htime⟩ | ⟨running, start, hrunning⟩
  · have hnext : w.sched.next desc = { w.sched with queue := rest, inflight := {desc} } := by
      simp only [JobSporadicScheduler.next, hrest, erase_cons_head, hinflight]
      rfl
    have hcounted : (w.sched.next desc).counted = w.sched.counted := by
      rw [hnext, counted, counted, hrest, hinflight, add_zero, add_comm rest, singleton_add]
    rw [hrest] at htime
    have hcosts : ∀ task ∈ desc ::ₘ rest, 0 ≤ cost task := by
      intro task htask
      rw [← hrest] at htask
      exact h.cost_nonneg (h.mem_queue htask)
    obtain ⟨hend, hothers⟩ := htime.first hcosts fun task htask =>
      hfirst task (hrest ▸ mem_cons_of_mem htask)
    have hcost := h.cost_nonneg (h.mem_queue hmem)
    constructor
    · exact h.capacity
    · exact h.reserved
    · rw [hcounted]
      exact h.ids
    · rw [hcounted]
      exact h.positive
    · exact h.completed
    · rw [hnext]
      exact .busy desc w.now rfl rfl le_rfl (show w.now ≤ w.now + cost desc by omega) hend hothers
  · rw [hidle] at hrunning
    cases hrunning

theorem Served.complete (h : Served w) {start : Int} (hrunning : w.running = some (desc, start)) :
    Served { w with
      sched := w.sched.complete desc.id, running := none,
      completed := (desc, w.now) :: w.completed } := by
  have hle : (w.sched.complete desc.id).counted ≤ w.sched.counted :=
    add_le_add_left (add_le_add_right (filter_le _ _) _) _
  rcases h.works with ⟨hnone⟩ | ⟨running, first, hsome, hinflight, -, hnow, hend, htime⟩
  · rw [hnone] at hrunning
    cases hrunning
  · rw [hrunning] at hsome
    cases hsome
    constructor
    · exact h.capacity
    · exact h.reserved
    · exact nodup_of_le (map_le_map hle) h.ids
    · exact fun task htask => h.positive task (mem_of_le hle htask)
    · refine List.forall_mem_cons.2 ⟨?_, h.completed⟩
      exact hnow.trans hend
    · refine .idle rfl ?_ (htime.mono hnow)
      simp [JobSporadicScheduler.complete, hinflight]

theorem Served.pass (h : Served w) {later : Int} (hlater : w.now ≤ later)
    (hrunning : ∀ desc start, w.running = some (desc, start) → later ≤ start + cost desc)
    (hidle : w.running = none → w.sched.queue = 0) : Served { w with now := later } := by
  refine { h with works := ?_ }
  rcases h.works with ⟨hnone, hinflight⟩ |
    ⟨desc, start, hsome, hinflight, hstart, -, hend, htime⟩
  · refine .idle hnone hinflight ?_
    rw [hidle hnone]
    exact fun task htask => absurd htask (notMem_zero _)
  · exact .busy desc start hsome hinflight (hstart.trans hlater) (hrunning desc start hsome) hend
      htime

theorem Served.step (h : Served w) {event : WorkerEvent} (hwaits : Waits w event)
    (hstep : Step w event w') : Served w' := by
  cases hstep with
  | submit desc mid sched hwcet hid hadmits henqueue =>
    exact h.submit hwcet hid hadmits henqueue hwaits
  | refuse desc sched hcall =>
    have hsame : sched = w.sched := by
      cases hcall with
      | admits items _ _ _ _ hitems hcall =>
        obtain ⟨hfalse, -⟩ | ⟨d, -, ⟨-, hfalse, -⟩ | ⟨-, -, rfl⟩⟩ :=
          admit_cases (by rw [h.capacity]; decide) hitems hcall
        · cases hfalse
        · cases hfalse
        · rfl
    rw [hsame]
    exact h
  | next desc sched hidle hcall =>
    cases hcall with
    | next _ htop => exact h.next hidle htop
  | complete desc start sched hrunning hcall =>
    cases hcall with
    | complete => exact h.complete hrunning
  | pass later hlater hrunning hidle => exact h.pass hlater hrunning hidle

theorem served_start (first : Int) : Served { now := first } where
  capacity := rfl
  reserved := rfl
  ids := nodup_zero
  positive := fun _ hdesc => absurd hdesc (notMem_zero _)
  completed := fun _ htask => absurd htask List.not_mem_nil
  works := .idle rfl rfl fun _ htask => absurd htask (notMem_zero _)

theorem served_of_waits (h : Run Waits first w) : Served w := by
  induction h with
  | start => exact served_start first
  | step h hwaits hstep ih => exact ih.step hwaits hstep

def Follows (w w' : SporadicWorker) : Prop := ∃ event, Step w event w'

/-- An idle worker whose queue asks for more than there is by `d` ends some task too late, when
all tasks use up their cost. -/
theorem misses_of_overload {d : Int} (w : SporadicWorker) (hidle : w.running = none)
    (hinflight : w.sched.inflight = 0)
    (hpositive : ∀ desc ∈ w.sched.queue, 0 < desc.wcet)
    (hdue : ∃ desc ∈ w.sched.queue, desc.deadline ≤ d)
    (hover : d < w.now + demand deadline cost w.sched.queue d) :
    ∃ w', Relation.ReflTransGen Follows w w' ∧ ¬ w'.OnTime := by
  induction hcard : w.sched.queue.card generalizing w with
  | zero =>
    obtain ⟨desc, hdesc, -⟩ := hdue
    rw [card_eq_zero.1 hcard] at hdesc
    exact absurd hdesc (notMem_zero _)
  | succ n ih =>
    obtain ⟨top, htop⟩ := exists_top (s := w.sched) fun hnone => by
      rw [hnone] at hcard
      cases hcard
    obtain ⟨later, hlater, hle⟩ := hdue
    obtain ⟨rest, hrest⟩ := exists_cons_of_mem htop.1
    have htopDue : top.deadline ≤ d := (htop.2 later hlater).trans hle
    have hnext : w.sched.next top = { w.sched with queue := rest, inflight := {top} } := by
      simp only [JobSporadicScheduler.next, hrest, erase_cons_head, hinflight]
      rfl
    have hcost : 0 ≤ cost top := by
      have := hpositive top htop.1
      unfold cost
      omega
    rw [hrest, demand_cons] at hover
    have hlimit : ∀ desc start, some (top, w.now) = some (desc, start) →
        w.now + cost top ≤ start + cost desc := by
      intro desc start hsame
      cases hsame
      exact le_rfl
    have hbusy : some (top, w.now) = none → (w.sched.next top).queue = 0 := fun hnone =>
      absurd hnone (Option.some_ne_none _)
    -- The task runs for as long as it may.
    have hstarted : Relation.ReflTransGen Follows w _ :=
      .single ⟨_, .next w top _ hidle (.next _ _ htop)⟩
    have hended := hstarted.tail
      ⟨_, .pass _ (w.now + cost top) (show w.now ≤ w.now + cost top by omega) hlimit hbusy⟩
    have hrun := hended.tail ⟨_, .complete _ top w.now _ rfl (.complete _ _)⟩
    rw [hnext] at hrun
    by_cases hmore : ∃ desc ∈ rest, desc.deadline ≤ d
    · refine (ih _ rfl ?_ ?_ hmore ?_ ?_).imp fun _ h => ⟨hrun.trans h.1, h.2⟩
      · simp [JobSporadicScheduler.complete]
      · exact fun desc hdesc => hpositive desc (hrest ▸ mem_cons_of_mem hdesc)
      · change d < w.now + cost top + demand deadline cost rest d
        omega
      · rw [hrest, card_cons] at hcard
        exact Nat.succ.inj hcard
    · have hnone : demand deadline cost rest d = 0 :=
        demand_eq_zero fun desc hdesc => lt_of_not_ge fun hle => hmore ⟨desc, hdesc, hle⟩
      refine ⟨_, hrun, fun honTime => ?_⟩
      have hlate : w.now + cost top ≤ top.deadline := honTime.1 _ List.mem_cons_self
      omega

/-- Ten microseconds of work, due at 100. -/
theorem submit_first : Step { now := 0 } (.submit ⟨1, 100000, 10⟩)
    ⟨{ create 1 with queue := {⟨1, 100000, 10⟩} }, 0, none, []⟩ := by
  refine .submit _ ⟨1, 100000, 10⟩ _ _ (by decide) (notMem_zero _)
    (.admits _ [⟨100000, 10⟩] _ _ _ _ ?_ rfl)
    (.enqueue _ [⟨100000, 10⟩, ⟨100000, 10⟩] _ _ _ _ ?_ rfl)
  · rintro d ⟨⟩
    exact ⟨List.pairwise_singleton _ _, rfl⟩
  · rintro d ⟨⟩
    exact ⟨by decide, rfl⟩

/-- Five more that are due at 7, while the first task runs. -/
theorem submit_second : Step
    ⟨{ create 1 with inflight := {⟨1, 100000, 10⟩} }, 1000, some (⟨1, 100000, 10⟩, 0), []⟩
    (.submit ⟨2, 7000, 5⟩)
    ⟨{ create 1 with queue := {⟨2, 7000, 5⟩}, inflight := {⟨1, 100000, 10⟩} }, 1000,
      some (⟨1, 100000, 10⟩, 0), []⟩ := by
  refine .submit _ ⟨2, 7000, 5⟩ _ _ (by decide) (by decide)
    (.admits _ [⟨7000, 5⟩, ⟨100000, 10⟩] _ _ _ _ ?_ rfl)
    (.enqueue _ [⟨7000, 5⟩, ⟨7000, 5⟩, ⟨100000, 10⟩] _ _ _ _ ?_ rfl)
  · rintro d ⟨⟩
    exact ⟨by decide, rfl⟩
  · rintro d ⟨⟩
    have hswap := List.Perm.swap (⟨100000, 10⟩ : Ticket) ⟨7000, 5⟩ []
    exact ⟨by decide, coe_eq_coe.2 (hswap.cons _)⟩

/-- The condition cannot be weakened: where a task is accepted without it, a deadline may be
missed. -/
theorem misses_of_not_canWait (h : Run Waits first w) (hstep : Step w (.submit desc) w')
    (hnot : ¬ w.CanWait desc) :
    ∃ w'', Relation.ReflTransGen Follows w' w'' ∧ ¬ w''.OnTime := by
  have hserved := served_of_waits h
  cases hstep with
  | submit _ mid sched hwcet hid hadmits henqueue =>
    simp only [CanWait, not_forall, not_le] at hnot
    obtain ⟨running, start, hrunning, task, htask, -, -, hover⟩ := hnot
    rcases hserved.works with ⟨hnone⟩ | ⟨_, _, hsome, hinflight, hstart, hnow⟩
    · rw [hnone] at hrunning
      cases hrunning
    · rw [hrunning] at hsome
      cases hsome
      obtain ⟨rfl⟩ := submitted hserved.capacity hserved.reserved hserved.positive hwcet hadmits
        henqueue
      have hended : Follows { w with sched.queue := desc ::ₘ w.sched.queue } _ :=
        ⟨_, .pass _ (start + cost running) hnow (by
          intro desc' start' hsame
          rw [show w.running = some (desc', start') from hsame] at hrunning
          cases hrunning
          exact le_rfl) (by
          intro hnone
          rw [show w.running = none from hnone] at hrunning
          cases hrunning)⟩
      have hrun := (Relation.ReflTransGen.single hended).tail
        ⟨_, .complete _ running start _ hrunning (.complete _ _)⟩
      refine (misses_of_overload _ rfl ?_ ?_ ⟨task, htask, le_rfl⟩ hover).imp fun _ h =>
        ⟨hrun.trans h.1, h.2⟩
      · simp [JobSporadicScheduler.complete, hinflight]
      · refine forall_mem_cons.2 ⟨hwcet, fun other hother => ?_⟩
        exact hserved.positive other (hserved.mem_queue hother)

theorem misses_of_not_canWait_second : ∃ w, Relation.ReflTransGen Follows
    ⟨{ create 1 with queue := {⟨2, 7000, 5⟩}, inflight := {⟨1, 100000, 10⟩} }, 1000,
      some (⟨1, 100000, 10⟩, 0), []⟩ w ∧ ¬ w.OnTime := by
  have hfirst : Run Waits 0 _ := .step .start (by rintro _ _ ⟨⟩) submit_first
  have hnext := hfirst.step (by trivial)
    (.next _ ⟨1, 100000, 10⟩ _ rfl (.next _ _ ⟨by decide, by decide⟩))
  have hone := hnext.step (by trivial) (.pass _ 1000 (by decide) (by rintro _ _ ⟨⟩; decide) nofun)
  refine misses_of_not_canWait hone submit_second fun hwait => ?_
  exact absurd (hwait _ _ rfl ⟨2, 7000, 5⟩ (by decide) (by decide) (by decide)) (by decide)

end SporadicWorker

end JobThreads
