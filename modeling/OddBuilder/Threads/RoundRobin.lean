import OddBuilder.Library.CyclicScan
import Mathlib.Algebra.BigOperators.Group.List.Basic
import Mathlib.Algebra.Order.Ring.Nat
import Mathlib.Data.List.Perm.Basic

/-!
# The round robin scheduler

One queue for each priority level, and a cursor that moves on from the level
served last. Calls hold the mutex, so a history is a list of calls; a call of
`next` stands where it returns, and where nothing is queued it waits.
-/

namespace JobThreads

open CyclicScan List

structure JobTaskDescriptor where
  id : UInt64
  priority : Int32
  deriving DecidableEq

/-- `if (priority < 0) priority = 0;` -/
def JobTaskDescriptor.level (desc : JobTaskDescriptor) : Nat := desc.priority.toInt.toNat

structure JobRoundRobinScheduler where
  queues : List (List JobTaskDescriptor) := []
  totalSize : Nat := 0
  currentPriority : Nat := 0

namespace JobRoundRobinScheduler

variable {calls : List Call} {level : Nat} {call : Call} {first served : List JobTaskDescriptor}

def queue (s : JobRoundRobinScheduler) (level : Nat) : List JobTaskDescriptor :=
  s.queues.getD level []

/-- `m_queues.resize(n)` -/
def resize (s : JobRoundRobinScheduler) (n : Nat) : JobRoundRobinScheduler :=
  { s with queues := s.queues ++ List.replicate (n - s.queues.length) [] }

def push (s : JobRoundRobinScheduler) (desc : JobTaskDescriptor) : JobRoundRobinScheduler :=
  { s with
    queues := s.queues.set desc.level (s.queue desc.level ++ [desc])
    totalSize := s.totalSize + 1 }

/-- A descriptor of another kind is dropped. Where the `int` `priority + 1` overflows the call
has no result. -/
def enqueue (s : JobRoundRobinScheduler) (desc : Option JobTaskDescriptor) :
    Option JobRoundRobinScheduler :=
  match desc with
  | none => some s
  | some desc =>
    if s.queues.length ≤ desc.level then
      if desc.level + 1 ≤ 2147483647 then some ((s.resize (desc.level + 1)).push desc) else none
    else some (s.push desc)

/-- The task that is returned by its id, if any. -/
def next (s : JobRoundRobinScheduler) : Option (JobTaskDescriptor × JobRoundRobinScheduler) :=
  if s.totalSize = 0 then none
  else do
    let n := s.queues.length
    let i ← scan n s.currentPriority fun level => !(s.queue level).isEmpty
    let level := (s.currentPriority + i) % n
    match s.queue level with
    | [] => none
    | desc :: rest =>
      some (desc, { queues := s.queues.set level rest, totalSize := s.totalSize - 1,
                    currentPriority := (level + 1) % n })

inductive Call where
  | enqueue (desc : Option JobTaskDescriptor)
  | next (wid : UInt32)

/-- A call: what it leaves, and the task that it returns. -/
def step (s : JobRoundRobinScheduler) :
    Call → Option (JobRoundRobinScheduler × List JobTaskDescriptor)
  | .enqueue desc => (s.enqueue desc).map (·, [])
  | .next _ =>
    match s.next with
    | none => some (s, [])
    | some (desc, t) => some (t, [desc])

/-- What is left behind the calls, and the tasks returned. -/
def run (s : JobRoundRobinScheduler) :
    List Call → Option (JobRoundRobinScheduler × List JobTaskDescriptor)
  | [] => some (s, [])
  | call :: calls => do
    let (t, first) ← s.step call
    let (u, later) ← t.run calls
    return (u, first ++ later)

/-- The tasks enqueued. -/
def enqueued : List Call → List JobTaskDescriptor
  | [] => []
  | .enqueue (some desc) :: calls => desc :: enqueued calls
  | _ :: calls => enqueued calls

/-- The level has a task before each of the calls and behind them. -/
def Stays (s : JobRoundRobinScheduler) (level : Nat) (calls : List Call) : Prop :=
  ∀ k t served, s.run (calls.take k) = some (t, served) → t.queue level ≠ []

/-- What the scheduler promises of a history of calls. -/
structure Served (calls : List Call) (s : JobRoundRobinScheduler)
    (served : List JobTaskDescriptor) : Prop where
  total_eq : s.totalSize = (s.queues.map List.length).sum
  kept : (enqueued calls).Perm (served ++ s.queues.flatten)
  ordered : ∀ level, (enqueued calls).filter (·.level = level) =
    served.filter (·.level = level) ++ s.queue level
  progress : (∃ level, s.queue level ≠ []) → s.next.isSome = true
  fair : ∀ before waiting after, calls = before ++ waiting ++ after →
    ∀ t done u passed, run {} before = some (t, done) → t.run waiting = some (u, passed) →
      ∀ level, t.Stays level waiting → level ∉ passed.map (·.level) →
        ∀ other, (passed.map (·.level)).count other ≤ 1

/-- The counter counts, the cursor is on a level, and every task is queued at its level. -/
structure Consistent (s : JobRoundRobinScheduler) : Prop where
  total_eq : s.totalSize = s.queues.flatten.length
  cursor_lt : s.queues ≠ [] → s.currentPriority < s.queues.length
  cursor_zero : s.queues = [] → s.currentPriority = 0
  levels : ∀ level, ∀ desc ∈ s.queue level, desc.level = level
  length_le : s.queues.length ≤ 2147483647

/-- The task stands behind those of its level. -/
structure Enqueued (s : JobRoundRobinScheduler) (desc : JobTaskDescriptor)
    (t : JobRoundRobinScheduler) : Prop where
  queue_eq : ∀ level, t.queue level =
    if level = desc.level then s.queue level ++ [desc] else s.queue level
  perm : (s.queues.flatten ++ [desc]).Perm t.queues.flatten
  total_eq : t.totalSize = s.totalSize + 1
  cursor_eq : t.currentPriority = s.currentPriority
  length_eq : t.queues.length = max s.queues.length (desc.level + 1)

/-- The task was the first of its level; the cursor is behind the level. -/
structure Returned (s : JobRoundRobinScheduler) (desc : JobTaskDescriptor)
    (t : JobRoundRobinScheduler) : Prop where
  queue_eq : s.queue desc.level = desc :: t.queue desc.level
  other_eq : ∀ level, level ≠ desc.level → t.queue level = s.queue level
  perm : s.queues.flatten.Perm (desc :: t.queues.flatten)
  total_eq : t.totalSize = s.totalSize - 1
  length_eq : t.queues.length = s.queues.length
  level_lt : desc.level < s.queues.length
  cursor_eq : t.currentPriority = (desc.level + 1) % s.queues.length
  within : ∀ level, s.queue level ≠ [] → Within s.currentPriority level desc.level

variable {s t : JobRoundRobinScheduler} {desc : JobTaskDescriptor}

theorem queue_of_ge (h : s.queues.length ≤ level) : s.queue level = [] := by
  rw [queue, getD_eq_getElem?_getD, List.getElem?_eq_none h]
  rfl

theorem lt_of_queue (h : s.queue level ≠ []) : level < s.queues.length := by
  by_contra hge
  exact h (queue_of_ge (by omega))

theorem queue_set (h : level < s.queues.length) (q : List JobTaskDescriptor) (l : Nat) :
    (s.queues.set level q).getD l [] = if l = level then q else s.queue l := by
  split
  · rename_i heq
    subst heq
    rw [getD_eq_getElem?_getD, List.getElem?_set_self h]
    rfl
  · rename_i hne
    rw [getD_eq_getElem?_getD, List.getElem?_set_ne (Ne.symm hne), queue, getD_eq_getElem?_getD]

/-- The queues before a level, the level, and those behind it. -/
theorem exists_split (h : level < s.queues.length) : ∃ front back,
    s.queues = front ++ s.queue level :: back ∧
      ∀ q, s.queues.set level q = front ++ q :: back := by
  refine ⟨s.queues.take level, s.queues.drop (level + 1), ?_, fun q => ?_⟩
  · rw [queue, getD_eq_getElem?_getD, List.getElem?_eq_getElem h, Option.getD_some,
      ← drop_eq_getElem_cons h, take_append_drop]
  · rw [set_eq_take_append_cons_drop, if_pos h]

theorem queue_resize (s : JobRoundRobinScheduler) (n level : Nat) :
    (s.resize n).queue level = s.queue level := by
  rcases Nat.lt_or_ge level s.queues.length with hlt | hge
  · rw [queue, resize, getD_eq_getElem?_getD, List.getElem?_append_left hlt, queue,
      getD_eq_getElem?_getD]
  · rw [queue_of_ge hge, queue, resize, getD_eq_getElem?_getD,
      List.getElem?_append_right hge, List.getElem?_replicate]
    split <;> rfl

theorem flatten_resize (s : JobRoundRobinScheduler) (n : Nat) :
    (s.resize n).queues.flatten = s.queues.flatten := by
  simp [resize]

theorem push_enqueued (h : desc.level < s.queues.length) : Enqueued s desc (s.push desc) := by
  obtain ⟨front, back, hqueues, hset⟩ := exists_split h
  constructor
  · intro level
    show (s.queues.set desc.level _).getD level [] = _
    rw [queue_set h]
    split
    · rename_i heq
      rw [heq]
    · rfl
  · show List.Perm _ (s.queues.set desc.level _).flatten
    rw [hset]
    conv_lhs => rw [hqueues]
    simp only [flatten_append, flatten_cons, append_assoc]
    refine List.Perm.append_left _ (List.Perm.append_left _ ?_)
    exact perm_append_comm
  · rfl
  · rfl
  · simp only [push, length_set]
    omega

/-- Only the largest priority has no level. -/
theorem enqueue_spec (s : JobRoundRobinScheduler) (hlevel : desc.level < 2147483647) :
    ∃ t, s.enqueue (some desc) = some t ∧ Enqueued s desc t := by
  simp only [enqueue]
  rcases Nat.lt_or_ge desc.level s.queues.length with hlt | hge
  · rw [if_neg (by omega)]
    exact ⟨_, rfl, push_enqueued hlt⟩
  · have hlength : (s.resize (desc.level + 1)).queues.length = desc.level + 1 := by
      simp only [resize, length_append, length_replicate]
      omega
    have hpushed := @push_enqueued (s.resize (desc.level + 1)) desc (by omega)
    rw [if_pos hge, if_pos (by omega)]
    refine ⟨_, rfl, fun level => ?_, ?_, hpushed.total_eq, hpushed.cursor_eq, ?_⟩
    · rw [hpushed.queue_eq, queue_resize]
    · rw [← flatten_resize s (desc.level + 1)]
      exact hpushed.perm
    · rw [hpushed.length_eq]
      omega

theorem enqueue_largest (h : s.Consistent) (hlevel : desc.level = 2147483647) :
    s.enqueue (some desc) = none := by
  have hlength := h.length_le
  rw [enqueue, if_pos (by omega), if_neg (by omega)]

theorem Consistent.of_enqueued (h : s.Consistent) (hlevel : desc.level < 2147483647)
    (ht : Enqueued s desc t) : t.Consistent := by
  have hlength := ht.length_eq
  have hsmall := h.length_le
  constructor
  · rw [ht.total_eq, ← ht.perm.length_eq, h.total_eq, length_append, length_singleton]
  · intro _
    rw [ht.cursor_eq]
    by_cases hempty : s.queues = []
    · rw [h.cursor_zero hempty]
      omega
    · have := h.cursor_lt hempty
      omega
  · intro hempty
    rw [hempty, length_nil] at hlength
    omega
  · intro level d hd
    rw [ht.queue_eq] at hd
    split at hd
    · rename_i heq
      rcases mem_append.1 hd with hd | hd
      · exact h.levels level d hd
      · rw [mem_singleton.1 hd, heq]
    · exact h.levels level d hd
  · omega

theorem next_spec (h : s.Consistent) (hnext : s.next = some (desc, t)) : Returned s desc t := by
  unfold next at hnext
  split at hnext
  · cases hnext
  · simp only at hnext
    obtain ⟨i, hscan, hnext⟩ := Option.bind_eq_some_iff.1 hnext
    have hi := (scan_hit hscan).2
    have hcursor := h.cursor_lt fun hempty => by
      rw [hempty, length_nil] at hi
      omega
    have hlt := Nat.mod_lt (s.currentPriority + i) (show 0 < s.queues.length by omega)
    have hwithin : ∀ level, s.queue level ≠ [] →
        Within s.currentPriority level ((s.currentPriority + i) % s.queues.length) :=
      fun level hlevel => scan_within hcursor (lt_of_queue hlevel) (by simpa using hlevel) hscan
    generalize hplace : (s.currentPriority + i) % s.queues.length = place at *
    split at hnext
    · cases hnext
    · rename_i first rest hqueue
      simp only [Option.some.injEq, Prod.mk.injEq] at hnext
      obtain ⟨rfl, rfl⟩ := hnext
      have hlevel : first.level = place := h.levels place first (by rw [hqueue]; simp)
      obtain ⟨front, back, hqueues, hset⟩ := exists_split hlt
      constructor
      · show _ = first :: (s.queues.set place rest).getD first.level []
        rw [queue_set hlt, if_pos hlevel, hlevel, hqueue]
      · intro level hne
        show (s.queues.set place rest).getD level [] = _
        rw [queue_set hlt, if_neg (hlevel ▸ hne)]
      · show List.Perm _ (first :: (s.queues.set place rest).flatten)
        rw [hset]
        conv_lhs => rw [hqueues, hqueue]
        simp only [flatten_append]
        exact perm_middle
      · rfl
      · simp
      · rw [hlevel]
        exact hlt
      · rw [hlevel]
      · rw [hlevel]
        exact hwithin

/-- Something queued is found. -/
theorem next_isSome (h : s.Consistent) (hqueued : ∃ level, s.queue level ≠ []) :
    s.next.isSome = true := by
  obtain ⟨level, hlevel⟩ := hqueued
  have hlt := lt_of_queue hlevel
  have hcursor := h.cursor_lt fun hempty => by
    rw [hempty, length_nil] at hlt
    omega
  have hfound := @scan_isSome s.queues.length s.currentPriority
    (fun level => !(s.queue level).isEmpty) level hcursor hlt (by simpa using hlevel)
  have htotal : s.totalSize ≠ 0 := by
    obtain ⟨front, back, hqueues, -⟩ := exists_split hlt
    rw [h.total_eq, hqueues]
    simp [hlevel]
  obtain ⟨i, hscan⟩ := Option.isSome_iff_exists.1 hfound
  have hhit := (scan_hit hscan).1
  rw [next, if_neg htotal]
  simp only [hscan, Option.bind_eq_bind, Option.bind_some]
  split
  · rename_i hnil
    rw [hnil] at hhit
    cases hhit
  · rfl

theorem Consistent.of_returned (h : s.Consistent) (ht : Returned s desc t) : t.Consistent := by
  have hlength := ht.length_eq
  have hlt := ht.level_lt
  constructor
  · rw [ht.total_eq, h.total_eq, ht.perm.length_eq]
    rfl
  · intro _
    rw [ht.cursor_eq, hlength]
    exact Nat.mod_lt _ (by omega)
  · intro hempty
    rw [hempty, length_nil] at hlength
    omega
  · intro level d hd
    by_cases heq : level = desc.level
    · subst heq
      exact h.levels _ d (by rw [ht.queue_eq]; exact mem_cons_of_mem _ hd)
    · rw [ht.other_eq level heq] at hd
      exact h.levels level d hd
  · rw [hlength]
    exact h.length_le

theorem level_le (desc : JobTaskDescriptor) : desc.level ≤ 2147483647 := by
  have hlt := Int32.toInt_lt desc.priority
  unfold JobTaskDescriptor.level
  omega

theorem level_lt_iff : desc.level < 2147483647 ↔ desc.priority ≠ Int32.maxValue := by
  have hmax : Int32.maxValue.toInt = 2147483647 := by decide
  rw [Ne, ← Int32.toInt_inj]
  have hle := level_le desc
  unfold JobTaskDescriptor.level at *
  omega

/-- What a call can do. -/
theorem step_cases (h : s.Consistent) (hstep : s.step call = some (t, first)) :
    (t = s ∧ first = [] ∧ enqueued [call] = []) ∨
      (∃ desc, call = .enqueue (some desc) ∧ desc.level < 2147483647 ∧ first = [] ∧
        Enqueued s desc t) ∨
      (∃ wid desc, call = .next wid ∧ first = [desc] ∧ Returned s desc t) := by
  cases call with
  | enqueue desc =>
    obtain ⟨t', ht, heq⟩ := Option.map_eq_some_iff.1 hstep
    obtain ⟨rfl, rfl⟩ := Prod.mk.inj heq
    cases desc with
    | none => exact Or.inl ⟨(Option.some.inj ht).symm, rfl, rfl⟩
    | some desc =>
      have hlevel : desc.level < 2147483647 := by
        by_contra hge
        have hle := level_le desc
        rw [enqueue_largest h (by omega)] at ht
        cases ht
      obtain ⟨u, hu, henqueued⟩ := enqueue_spec s hlevel
      obtain rfl := Option.some.inj (hu.symm.trans ht)
      exact Or.inr (Or.inl ⟨desc, rfl, hlevel, rfl, henqueued⟩)
  | next wid =>
    rw [step] at hstep
    split at hstep
    · obtain ⟨rfl, rfl⟩ := Prod.mk.inj (Option.some.inj hstep)
      exact Or.inl ⟨rfl, rfl, rfl⟩
    · rename_i desc u hnext
      obtain ⟨rfl, rfl⟩ := Prod.mk.inj (Option.some.inj hstep)
      exact Or.inr (Or.inr ⟨wid, desc, rfl, rfl, next_spec h hnext⟩)

theorem Consistent.step (h : s.Consistent) (hstep : s.step call = some (t, first)) :
    t.Consistent := by
  obtain ⟨rfl, -⟩ | ⟨desc, -, hlevel, -, ht⟩ | ⟨wid, desc, -, -, ht⟩ := step_cases h hstep
  · exact h
  · exact h.of_enqueued hlevel ht
  · exact h.of_returned ht

theorem run_cons {u : JobRoundRobinScheduler} (h : s.run (call :: calls) = some (u, served)) :
    ∃ t first later, s.step call = some (t, first) ∧ t.run calls = some (u, later) ∧
      served = first ++ later := by
  obtain ⟨⟨t, first⟩, hstep, h⟩ := Option.bind_eq_some_iff.1 h
  obtain ⟨⟨u', later⟩, hrun, h⟩ := Option.bind_eq_some_iff.1 h
  obtain ⟨rfl, rfl⟩ := Prod.mk.inj (Option.some.inj h)
  exact ⟨t, first, later, hstep, hrun, rfl⟩

theorem run_of_step {u : JobRoundRobinScheduler} {later : List JobTaskDescriptor}
    (hstep : s.step call = some (t, first)) (hrun : t.run calls = some (u, later)) :
    s.run (call :: calls) = some (u, first ++ later) := by
  simp only [run, hstep, hrun, Option.bind_eq_bind, Option.bind_some]
  rfl

/-- What is queued and what comes is what goes and what stays, level by level in order. -/
structure Conserves (s : JobRoundRobinScheduler) (calls : List Call) (t : JobRoundRobinScheduler)
    (served : List JobTaskDescriptor) : Prop where
  consistent : t.Consistent
  perm : (s.queues.flatten ++ enqueued calls).Perm (served ++ t.queues.flatten)
  ordered : ∀ level, s.queue level ++ (enqueued calls).filter (·.level = level) =
    served.filter (·.level = level) ++ t.queue level

theorem enqueued_cons (call : Call) (calls : List Call) :
    enqueued (call :: calls) = enqueued [call] ++ enqueued calls := by
  rcases call with (_ | desc) | wid <;> rfl

theorem conserves_step (h : s.Consistent) (hstep : s.step call = some (t, first)) :
    Conserves s [call] t first := by
  have hconsistent := h.step hstep
  obtain ⟨rfl, hnone⟩ | ⟨desc, rfl, hlevel, rfl, ht⟩ | ⟨wid, desc, rfl, rfl, ht⟩ :=
    step_cases h hstep
  · refine ⟨h, ?_, fun level => ?_⟩
    · simp [hnone]
    · simp [hnone]
  · refine ⟨hconsistent, ht.perm, fun level => ?_⟩
    rw [ht.queue_eq]
    by_cases heq : level = desc.level
    · simp [enqueued, heq]
    · simp [enqueued, heq, Ne.symm heq]
  · refine ⟨hconsistent, ?_, fun level => ?_⟩
    · simpa [enqueued] using ht.perm
    · by_cases heq : level = desc.level
      · subst heq
        simp [enqueued, ht.queue_eq]
      · simp [enqueued, ht.other_eq level heq, Ne.symm heq]

theorem conserves_run (h : s.Consistent) (hrun : s.run calls = some (t, served)) :
    Conserves s calls t served := by
  induction calls generalizing s served with
  | nil =>
    obtain ⟨rfl, rfl⟩ := Prod.mk.inj (Option.some.inj hrun)
    refine ⟨h, ?_, fun level => ?_⟩ <;> simp [enqueued]
  | cons call calls ih =>
    obtain ⟨u, first, later, hstep, hlater, rfl⟩ := run_cons hrun
    have hone := conserves_step h hstep
    have hrest := ih hone.consistent hlater
    refine ⟨hrest.consistent, ?_, fun level => ?_⟩
    · rw [enqueued_cons, ← append_assoc]
      refine (hone.perm.append_right _).trans ?_
      rw [append_assoc, append_assoc]
      exact hrest.perm.append_left _
    · rw [enqueued_cons, filter_append, ← append_assoc, hone.ordered, append_assoc,
        hrest.ordered, filter_append, append_assoc]

/-- Without the largest priority every call has its result. -/
theorem run_isSome (h : s.Consistent)
    (hcalls : ∀ desc, .enqueue (some desc) ∈ calls → desc.level < 2147483647) :
    ∃ t served, s.run calls = some (t, served) := by
  induction calls generalizing s with
  | nil => exact ⟨s, [], rfl⟩
  | cons call calls ih =>
    have hstep : ∃ t first, s.step call = some (t, first) := by
      rcases call with (_ | desc) | wid
      · exact ⟨s, [], rfl⟩
      · obtain ⟨t, ht, -⟩ := enqueue_spec s (hcalls desc (by simp))
        exact ⟨t, [], by rw [step, ht]; rfl⟩
      · rw [step]
        split
        · exact ⟨s, [], rfl⟩
        · exact ⟨_, _, rfl⟩
    obtain ⟨t, first, hstep⟩ := hstep
    obtain ⟨u, later, hrun⟩ := ih (h.step hstep) fun desc hmem =>
      hcalls desc (mem_cons_of_mem _ hmem)
    exact ⟨u, first ++ later, run_of_step hstep hrun⟩

theorem level_lt_of_run (h : s.Consistent) (hrun : s.run calls = some (t, served))
    (hmem : .enqueue (some desc) ∈ calls) : desc.level < 2147483647 := by
  induction calls generalizing s served with
  | nil => cases hmem
  | cons call calls ih =>
    obtain ⟨u, first, later, hstep, hlater, -⟩ := run_cons hrun
    rcases mem_cons.1 hmem with rfl | hmem
    · obtain ⟨-, -, hnone⟩ | ⟨d, hcall, hlevel, -⟩ | ⟨wid, d, hcall, -⟩ := step_cases h hstep
      · cases hnone
      · obtain rfl := Option.some.inj (Call.enqueue.inj hcall)
        exact hlevel
      · cases hcall
    · exact ih (h.step hstep) hlater hmem

theorem Stays.tail (hstays : s.Stays level (call :: calls))
    (hstep : s.step call = some (t, first)) : t.Stays level calls :=
  fun k u _ hrun => hstays (k + 1) u _ (run_of_step hstep hrun)

theorem Stays.head (hstays : s.Stays level calls) : s.queue level ≠ [] := hstays 0 s [] rfl

/-- A level behind the cursor is not served before the waiting one. -/
theorem not_served {other : Nat} {passed : List JobTaskDescriptor} (h : s.Consistent)
    (hstays : s.Stays level calls) (hrun : s.run calls = some (t, passed))
    (hwaiting : level ∉ passed.map (·.level)) (hbehind : ¬ Within s.currentPriority level other) :
    other ∉ passed.map (·.level) := by
  induction calls generalizing s passed with
  | nil =>
    obtain ⟨rfl, rfl⟩ := Prod.mk.inj (Option.some.inj hrun)
    simp
  | cons call calls ih =>
    obtain ⟨u, first, later, hstep, hlater, rfl⟩ := run_cons hrun
    have hrest := ih (h.step hstep) (hstays.tail hstep) hlater fun hmem => hwaiting (by
      rw [map_append]
      exact mem_append_right _ hmem)
    obtain ⟨rfl, rfl, -⟩ | ⟨desc, -, -, rfl, hu⟩ | ⟨wid, desc, -, rfl, hu⟩ := step_cases h hstep
    · exact hrest hbehind
    · exact hrest (by rwa [hu.cursor_eq])
    · have hne : desc.level ≠ level := fun heq => hwaiting (by simp [heq])
      have hlevel := lt_of_queue hstays.head
      have hway := hu.within level hstays.head
      have hnext := hrest fun hwithin => hbehind
        (within_next hlevel hu.level_lt hne hway (hu.cursor_eq ▸ hwithin)).1
      rw [map_append, mem_append]
      rintro (hmem | hmem)
      · obtain rfl := mem_singleton.1 hmem
        exact hbehind hway
      · exact hnext hmem

/-- While a level waits, every other one is served at most once. -/
theorem served_once {other : Nat} {passed : List JobTaskDescriptor} (h : s.Consistent)
    (hstays : s.Stays level calls) (hrun : s.run calls = some (t, passed))
    (hwaiting : level ∉ passed.map (·.level)) : (passed.map (·.level)).count other ≤ 1 := by
  induction calls generalizing s passed with
  | nil =>
    obtain ⟨rfl, rfl⟩ := Prod.mk.inj (Option.some.inj hrun)
    simp
  | cons call calls ih =>
    obtain ⟨u, first, later, hstep, hlater, rfl⟩ := run_cons hrun
    have hlaterWaiting : level ∉ later.map (·.level) := fun hmem => hwaiting (by
      rw [map_append]
      exact mem_append_right _ hmem)
    have hrest := ih (h.step hstep) (hstays.tail hstep) hlater hlaterWaiting
    obtain ⟨rfl, rfl, -⟩ | ⟨desc, -, -, rfl, hu⟩ | ⟨wid, desc, -, rfl, hu⟩ := step_cases h hstep
    · exact hrest
    · exact hrest
    · by_cases heq : desc.level = other
      · -- Behind its service the level lies behind the cursor.
        have hne : desc.level ≠ level := fun heq => hwaiting (by simp [heq])
        have hlevel := lt_of_queue hstays.head
        have hnever : other ∉ later.map (·.level) := by
          refine not_served (h.step hstep) (hstays.tail hstep) hlater hlaterWaiting
            fun hwithin => ?_
          rw [hu.cursor_eq] at hwithin
          exact (within_next hlevel hu.level_lt hne (hu.within level hstays.head) hwithin).2 heq.symm
        rw [map_append, count_append, count_eq_zero.2 hnever]
        simp [count_cons]
        split <;> omega
      · simpa [heq] using hrest

theorem consistent_new : Consistent {} :=
  ⟨rfl, fun h => absurd rfl h, fun _ => rfl, fun level desc hmem => by simp [queue] at hmem,
    by decide⟩

/-- A history has a result that keeps the promises exactly if no task has the largest priority. -/
theorem served_iff (calls : List Call) :
    (∃ s served, run {} calls = some (s, served) ∧ Served calls s served) ↔
      ∀ desc, .enqueue (some desc) ∈ calls → desc.priority ≠ Int32.maxValue := by
  constructor
  · rintro ⟨s, served, hrun, -⟩ desc hmem
    exact level_lt_iff.1 (level_lt_of_run consistent_new hrun hmem)
  · intro hcalls
    obtain ⟨s, served, hrun⟩ := run_isSome consistent_new fun desc hmem =>
      level_lt_iff.2 (hcalls desc hmem)
    have hconserves := conserves_run consistent_new hrun
    refine ⟨s, served, hrun, ?_, ?_, fun level => ?_, ?_, ?_⟩
    · rw [hconserves.consistent.total_eq, length_flatten]
    · simpa using hconserves.perm
    · exact hconserves.ordered level
    · exact next_isSome hconserves.consistent
    · rintro before waiting after rfl t done u passed hbefore hwaiting level hstays hnot other
      exact served_once (conserves_run consistent_new hbefore).consistent hstays hwaiting hnot

/-- One task of the largest priority. -/
theorem served_largest : ¬ ∀ calls : List Call,
    ∃ s served, run {} calls = some (s, served) ∧ Served calls s served := by
  intro h
  obtain ⟨s, served, hrun, -⟩ := h [.enqueue (some ⟨1, Int32.maxValue⟩)]
  have hnone : run {} [.enqueue (some ⟨1, Int32.maxValue⟩)] = none := by decide
  rw [hnone] at hrun
  cases hrun

end JobRoundRobinScheduler

end JobThreads
