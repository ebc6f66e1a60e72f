import Mathlib.Data.Finset.Max
import OddBuilder.Threads.Sporadic

/-!
# What the sporadic scheduler has accepted

Histories of calls in which every task has its own id. What they say is accepted
and not completed is what the three containers hold, each task once; so the test
weighs a new task against exactly the accepted ones.
-/

namespace JobThreads

open Demand Multiset

namespace SporadicCall

/-- Something was submitted under the id. -/
def submits (id : Nat) : SporadicCall → Bool
  | admits _ (some d) _ => d.id == id
  | enqueue _ (some d) _ => d.id == id
  | _ => false

def enqueues (id : Nat) : SporadicCall → Bool
  | enqueue _ (some d) _ => d.id == id
  | _ => false

def returns (id : Nat) : SporadicCall → Bool
  | next d => d.id == id
  | _ => false

/-- A task is admitted first, if at all, and enqueued once; its id is its own. -/
def Allowed (past : List SporadicCall) : SporadicCall → Prop
  | admits _ (some d) _ => ∀ call ∈ past, call.submits d.id = false
  | enqueue _ (some d) _ => (∀ call ∈ past, call.enqueues d.id = false) ∧
      ∀ now d' admitted, admits now (some d') admitted ∈ past → d'.id = d.id → d' = d
  | _ => True

/-- The tasks with a cost that are accepted and not completed. -/
def outstanding : List SporadicCall → Multiset JobSporadicDescriptor
  | [] => 0
  | admits _ (some d) true :: past =>
    if 0 < d.wcet then d ::ₘ outstanding past else outstanding past
  | enqueue _ (some d) true :: past =>
    if 0 < d.wcet ∧ d ∉ outstanding past then d ::ₘ outstanding past else outstanding past
  | complete tid :: past =>
    if past.any (returns tid) then (outstanding past).filter (·.id ≠ tid) else outstanding past
  | _ :: past => outstanding past

section Outstanding

variable (now : Int) (d : JobSporadicDescriptor) (past : List SporadicCall)

theorem outstanding_admits : outstanding (admits now (some d) true :: past) =
    if 0 < d.wcet then d ::ₘ outstanding past else outstanding past := rfl

theorem outstanding_enqueue : outstanding (enqueue now (some d) true :: past) =
    if 0 < d.wcet ∧ d ∉ outstanding past then d ::ₘ outstanding past else outstanding past := rfl

theorem outstanding_complete (tid : Nat) : outstanding (complete tid :: past) =
    if past.any (returns tid) then (outstanding past).filter (·.id ≠ tid) else outstanding past :=
  rfl

end Outstanding

end SporadicCall

open SporadicCall in
/-- Calls, the last one first, and what they leave. -/
inductive SporadicHistory (capacity : Nat) : List SporadicCall → JobSporadicScheduler → Prop where
  | start : SporadicHistory capacity [] (.create capacity)
  | step {past s call t} (h : SporadicHistory capacity past s) (hstep : SporadicStep s call t)
      (hallowed : Allowed past call) : SporadicHistory capacity (call :: past) t

namespace JobSporadicScheduler

open SporadicCall

variable {s t : JobSporadicScheduler} {past : List SporadicCall}
variable {now : Int} {call : SporadicCall} {d : JobSporadicDescriptor} {id : Nat}

/-- What `admit` can do. -/
theorem admit_cases {items : List Ticket} {desc : Option JobSporadicDescriptor} {admitted : Bool}
    (hcapacity : 0 < s.capacity) (hitems : ∀ d ∈ desc, s.Arranged d items)
    (h : s.admits items now desc = some (admitted, t)) :
    (desc = none ∧ admitted = true ∧ t = s) ∨ ∃ d, desc = some d ∧
      (d.wcet ≤ 0 ∧ admitted = true ∧ t = s ∨
        0 < d.wcet ∧ (admitted = true ↔
          Feasible s.capacity now (s.counted.filter (0 < ·.wcet)) d) ∧
          t = if admitted then s.reserve d else s) := by
  cases desc with
  | none =>
    obtain ⟨rfl, rfl⟩ := Prod.mk.inj (Option.some.inj h)
    exact Or.inl ⟨rfl, rfl, rfl⟩
  | some d =>
    refine Or.inr ⟨d, rfl, ?_⟩
    have harranged := hitems d rfl
    simp only [admits] at h
    split at h
    · obtain ⟨rfl, rfl⟩ := Prod.mk.inj (Option.some.inj h)
      exact Or.inl ⟨by assumption, rfl, rfl⟩
    · rename_i hwcet
      refine Or.inr ⟨by omega, ?_⟩
      split at h
      · rename_i hlate
        obtain ⟨rfl, rfl⟩ := Prod.mk.inj (Option.some.inj h)
        have htest : s.canAdmitUnlocked items now d.deadline d.wcet = some false := by
          rw [canAdmitUnlocked, if_neg hwcet, if_pos hlate]
        exact ⟨canAdmitUnlocked_iff hcapacity (by omega) harranged htest, rfl⟩
      · obtain ⟨ok, htest, h⟩ := Option.bind_eq_some_iff.1 h
        have hcriterion := canAdmitUnlocked_iff hcapacity (by omega) harranged htest
        cases ok with
        | false =>
          obtain ⟨rfl, rfl⟩ := Prod.mk.inj (Option.some.inj h)
          exact ⟨hcriterion, rfl⟩
        | true =>
          obtain ⟨rfl, rfl⟩ := Prod.mk.inj (Option.some.inj h)
          exact ⟨hcriterion, rfl⟩

/-- What `enqueue` can do. -/
theorem enqueue_cases {items : List Ticket} {desc : Option JobSporadicDescriptor} {queued : Bool}
    (hcapacity : 0 < s.capacity) (hitems : ∀ d ∈ desc, s.Arranged d items)
    (h : s.enqueue items now desc = some (queued, t)) :
    (desc = none ∧ queued = false ∧ t = s) ∨ ∃ d, desc = some d ∧
      (s.hasReserved d.id = true ∧ queued = true ∧
          t = { s with reserved := s.reserved.filter (·.1 ≠ d.id), queue := d ::ₘ s.queue } ∨
        s.hasReserved d.id = false ∧ (d.wcet ≤ 0 → queued = true) ∧
          (0 < d.wcet → (queued = true ↔
            Feasible s.capacity now (s.counted.filter (0 < ·.wcet)) d)) ∧
          t = if queued then { s with queue := d ::ₘ s.queue } else s) := by
  cases desc with
  | none =>
    obtain ⟨rfl, rfl⟩ := Prod.mk.inj (Option.some.inj h)
    exact Or.inl ⟨rfl, rfl, rfl⟩
  | some d =>
    refine Or.inr ⟨d, rfl, ?_⟩
    have harranged := hitems d rfl
    simp only [enqueue] at h
    split at h
    · rename_i hreserved
      obtain ⟨rfl, rfl⟩ := Prod.mk.inj (Option.some.inj h)
      exact Or.inl ⟨hreserved, rfl, rfl⟩
    · rename_i hreserved
      obtain ⟨ok, htest, h⟩ := Option.bind_eq_some_iff.1 h
      have hfree : d.wcet ≤ 0 → ok = true := by
        intro hwcet
        rw [canAdmitUnlocked, if_pos hwcet] at htest
        exact (Option.some.inj htest).symm
      have hcriterion := fun hwcet => canAdmitUnlocked_iff hcapacity hwcet harranged htest
      refine Or.inr ⟨by simpa using hreserved, ?_⟩
      cases ok with
      | false =>
        obtain ⟨rfl, rfl⟩ := Prod.mk.inj (Option.some.inj h)
        exact ⟨hfree, hcriterion, rfl⟩
      | true =>
        obtain ⟨rfl, rfl⟩ := Prod.mk.inj (Option.some.inj h)
        exact ⟨hfree, hcriterion, rfl⟩

/-- The task was admitted, and it is still to be enqueued. -/
def ReservedBy (past : List SporadicCall) (r : Nat × Reservation) : Prop :=
  (∃ now b, .admits now (some (reservedTask r)) b ∈ past) ∧ ∀ call ∈ past, call.enqueues r.1 = false

/-- The task was enqueued. -/
def EnqueuedBy (past : List SporadicCall) (d : JobSporadicDescriptor) : Prop :=
  ∃ now b, .enqueue now (some d) b ∈ past

/-- What the containers hold is what the history says, and it has come by its calls. -/
structure Ledger (past : List SporadicCall) (s : JobSporadicScheduler) : Prop where
  counted_eq : s.counted.filter (0 < ·.wcet) = outstanding past
  ids : (s.counted.map (·.id)).Nodup
  reserved_by : ∀ r ∈ s.reserved, ReservedBy past r
  queue_by : ∀ d ∈ s.queue, EnqueuedBy past d ∧ ∀ call ∈ past, call.returns d.id = false
  inflight_by : ∀ d ∈ s.inflight, .next d ∈ past
  returned_by : ∀ d, .next d ∈ past → EnqueuedBy past d
  capacity_pos : 0 < s.capacity

theorem ReservedBy.cons {r : Nat × Reservation} (h : ReservedBy past r)
    (hcall : call.enqueues r.1 = false) : ReservedBy (call :: past) r := by
  obtain ⟨⟨now, b, hadmits⟩, hnone⟩ := h
  exact ⟨⟨now, b, List.mem_cons_of_mem _ hadmits⟩, List.forall_mem_cons.2 ⟨hcall, hnone⟩⟩

theorem EnqueuedBy.cons (h : EnqueuedBy past d) (call : SporadicCall) :
    EnqueuedBy (call :: past) d := by
  obtain ⟨now, b, hmem⟩ := h
  exact ⟨now, b, List.mem_cons_of_mem _ hmem⟩

/-- A call that returns nothing. -/
theorem Ledger.returned_cons (h : Ledger past s) (hcall : ∀ d, call ≠ .next d)
    (d : JobSporadicDescriptor) (hd : .next d ∈ call :: past) : EnqueuedBy (call :: past) d := by
  rcases List.mem_cons.1 hd with heq | hd
  · exact absurd heq.symm (hcall d)
  · exact (h.returned_by d hd).cons call

theorem Ledger.queue_cons (h : Ledger past s) (hcall : ∀ d, call ≠ .next d)
    (d : JobSporadicDescriptor) (hd : d ∈ s.queue) :
    EnqueuedBy (call :: past) d ∧ ∀ call' ∈ call :: past, call'.returns d.id = false := by
  obtain ⟨henqueued, hnone⟩ := h.queue_by d hd
  refine ⟨henqueued.cons call, List.forall_mem_cons.2 ⟨?_, hnone⟩⟩
  cases call with
  | next d => exact absurd rfl (hcall d)
  | _ => rfl

theorem submits_of_enqueues (h : call.submits id = false) : call.enqueues id = false := by
  cases call with
  | enqueue now desc queued => cases desc <;> exact h
  | _ => rfl

/-- A task whose id no call has submitted is not among those counted. -/
theorem Ledger.fresh (h : Ledger past s) (hfresh : ∀ call ∈ past, call.submits id = false) :
    id ∉ s.counted.map (·.id) := by
  have henqueued : ∀ d, EnqueuedBy past d → d.id ≠ id := by
    rintro d ⟨now, b, hcall⟩ heq
    have := hfresh _ hcall
    simp [submits, heq] at this
  intro hmem
  obtain ⟨d, hd, hid⟩ := mem_map.1 hmem
  simp only [counted, mem_add, mem_map] at hd
  rcases hd with (hd | hd) | ⟨r, hr, rfl⟩
  · exact henqueued d (h.queue_by d hd).1 hid
  · exact henqueued d (h.returned_by d (h.inflight_by d hd)) hid
  · obtain ⟨⟨now, b, hcall⟩⟩ := h.reserved_by r hr
    have := hfresh _ hcall
    simp [submits, hid] at this

theorem Ledger.not_returned (h : Ledger past s) (hfresh : ∀ call ∈ past, call.enqueues id = false) :
    ∀ call ∈ past, call.returns id = false := by
  intro call hcall
  cases call with
  | next d =>
    by_contra hreturns
    have hid : d.id = id := by simpa [returns] using hreturns
    obtain ⟨now, b, henqueue⟩ := h.returned_by d hcall
    have := hfresh _ henqueue
    simp [enqueues, hid] at this
  | _ => rfl

/-- A call that leaves the containers alone. -/
theorem Ledger.same (h : Ledger past s) (hnext : ∀ d, call ≠ .next d)
    (hcall : ∀ r ∈ s.reserved, call.enqueues r.1 = false)
    (hsame : outstanding (call :: past) = outstanding past) : Ledger (call :: past) s where
  counted_eq := by rw [hsame, h.counted_eq]
  ids := h.ids
  reserved_by := fun r hr => (h.reserved_by r hr).cons (hcall r hr)
  queue_by := h.queue_cons hnext
  inflight_by := fun d hd => List.mem_cons_of_mem _ (h.inflight_by d hd)
  returned_by := h.returned_cons hnext
  capacity_pos := h.capacity_pos

theorem Ledger.reserve (h : Ledger past s) (hwcet : 0 < d.wcet)
    (hallowed : Allowed past (.admits now (some d) true)) :
    Ledger (.admits now (some d) true :: past) (s.reserve d) := by
  have hfresh := h.fresh hallowed
  have hreserved : s.reserved.filter (·.1 ≠ d.id) = s.reserved := by
    refine filter_eq_self.2 fun r hr heq => hfresh ?_
    refine mem_map.2 ⟨reservedTask r, ?_, heq⟩
    exact mem_add.2 (Or.inr (mem_map_of_mem _ hr))
  have hcounted : (s.reserve d).counted = d ::ₘ s.counted := by
    simp only [counted, JobSporadicScheduler.reserve, hreserved, map_cons, add_cons]
    rfl
  constructor
  · rw [hcounted, outstanding_admits, if_pos hwcet, ← h.counted_eq]
    exact filter_cons_of_pos _ hwcet
  · rw [hcounted, map_cons, nodup_cons]
    exact ⟨hfresh, h.ids⟩
  · intro r hr
    simp only [JobSporadicScheduler.reserve, hreserved, mem_cons] at hr
    rcases hr with rfl | hr
    · refine ⟨⟨now, true, List.mem_cons_self⟩, List.forall_mem_cons.2 ⟨rfl, fun call hcall => ?_⟩⟩
      exact submits_of_enqueues (hallowed call hcall)
    · exact (h.reserved_by r hr).cons rfl
  · exact h.queue_cons (by simp)
  · exact fun d' hd' => List.mem_cons_of_mem _ (h.inflight_by d' hd')
  · exact h.returned_cons (by simp)
  · exact h.capacity_pos

/-- The reserved task goes from one container to another. -/
theorem Ledger.consume (h : Ledger past s) (hreserved : s.hasReserved d.id = true)
    (hallowed : Allowed past (.enqueue now (some d) true)) :
    Ledger (.enqueue now (some d) true :: past)
      { s with reserved := s.reserved.filter (·.1 ≠ d.id), queue := d ::ₘ s.queue } := by
  obtain ⟨hnever, hsame⟩ := hallowed
  obtain ⟨r, hr, hid⟩ := mem_map.1 (of_decide_eq_true hreserved)
  obtain ⟨⟨before, b, hadmits⟩⟩ := h.reserved_by r hr
  have htask : reservedTask r = d := hsame before _ b hadmits hid
  have hreservedIds : (s.reserved.map (·.1)).Nodup := by
    have hids := h.ids
    rw [counted, map_add, map_map] at hids
    exact (nodup_add.1 hids).2.1
  have hsplit : s.reserved = r ::ₘ s.reserved.filter (·.1 ≠ d.id) := by
    obtain ⟨rest, hrest⟩ := exists_cons_of_mem hr
    rw [hrest, map_cons, nodup_cons] at hreservedIds
    have hothers : rest.filter (·.1 ≠ d.id) = rest := by
      refine filter_eq_self.2 fun r' hr' heq => hreservedIds.1 ?_
      exact mem_map.2 ⟨r', hr', heq.trans hid.symm⟩
    rw [hrest, filter_cons_of_neg _ (by simp [hid]), hothers]
  have hcounted : counted { s with
      reserved := s.reserved.filter (·.1 ≠ d.id), queue := d ::ₘ s.queue } = s.counted := by
    unfold counted
    conv_rhs => rw [hsplit]
    simp [htask]
  constructor
  · rw [hcounted, h.counted_eq, outstanding_enqueue, if_neg]
    rintro ⟨hwcet, hmem⟩
    rw [← h.counted_eq] at hmem
    refine hmem (mem_filter.2 ⟨?_, hwcet⟩)
    rw [← htask]
    exact mem_add.2 (Or.inr (mem_map_of_mem _ hr))
  · rw [hcounted]
    exact h.ids
  · intro r' hr'
    obtain ⟨hr', hne⟩ := mem_filter.1 hr'
    exact (h.reserved_by r' hr').cons (by simpa [enqueues] using Ne.symm hne)
  · intro d' hd'
    rcases mem_cons.1 hd' with rfl | hd'
    · refine ⟨⟨now, true, List.mem_cons_self⟩, List.forall_mem_cons.2 ⟨rfl, ?_⟩⟩
      exact h.not_returned hnever
    · exact h.queue_cons (by simp) d' hd'
  · exact fun d' hd' => List.mem_cons_of_mem _ (h.inflight_by d' hd')
  · exact h.returned_cons (by simp)
  · exact h.capacity_pos

/-- A task that nobody asked to admit before. -/
theorem Ledger.push (h : Ledger past s) (hreserved : s.hasReserved d.id = false)
    (hallowed : Allowed past (.enqueue now (some d) true)) :
    Ledger (.enqueue now (some d) true :: past) { s with queue := d ::ₘ s.queue } := by
  obtain ⟨hnever⟩ := hallowed
  have hnotReserved : ∀ r ∈ s.reserved, r.1 ≠ d.id := fun r hr heq =>
    of_decide_eq_false hreserved (mem_map.2 ⟨r, hr, heq⟩)
  have henqueued : ∀ d', EnqueuedBy past d' → d'.id ≠ d.id := by
    rintro d' ⟨before, b, hcall⟩ heq
    have := hnever _ hcall
    simp [enqueues, heq] at this
  have hfresh : d.id ∉ s.counted.map (·.id) := by
    intro hmem
    obtain ⟨d', hd', hid⟩ := mem_map.1 hmem
    simp only [counted, mem_add, mem_map] at hd'
    rcases hd' with (hd' | hd') | ⟨r, hr, rfl⟩
    · exact henqueued d' (h.queue_by d' hd').1 hid
    · exact henqueued d' (h.returned_by d' (h.inflight_by d' hd')) hid
    · exact hnotReserved r hr hid
  have hcounted : counted { s with queue := d ::ₘ s.queue } = d ::ₘ s.counted := by
    simp [counted]
  constructor
  · rw [hcounted, outstanding_enqueue, ← h.counted_eq]
    by_cases hwcet : 0 < d.wcet
    · rw [if_pos ⟨hwcet, fun hmem => hfresh (mem_map_of_mem _
        (mem_filter.1 hmem).1)⟩]
      exact filter_cons_of_pos _ hwcet
    · rw [if_neg fun hcond => hwcet hcond.1]
      exact filter_cons_of_neg _ hwcet
  · rw [hcounted, map_cons, nodup_cons]
    exact ⟨hfresh, h.ids⟩
  · intro r hr
    exact (h.reserved_by r hr).cons (by simpa [enqueues] using (hnotReserved r hr).symm)
  · intro d' hd'
    rcases mem_cons.1 hd' with rfl | hd'
    · refine ⟨⟨now, true, List.mem_cons_self⟩, List.forall_mem_cons.2 ⟨rfl, ?_⟩⟩
      exact h.not_returned hnever
    · exact h.queue_cons (by simp) d' hd'
  · exact fun d' hd' => List.mem_cons_of_mem _ (h.inflight_by d' hd')
  · exact h.returned_cons (by simp)
  · exact h.capacity_pos

theorem Ledger.next (h : Ledger past s) (hd : d ∈ s.queue) :
    Ledger (.next d :: past) (s.next d) := by
  obtain ⟨rest, hrest⟩ := exists_cons_of_mem hd
  have hids := h.ids
  simp only [counted, hrest, cons_add, map_cons, nodup_cons] at hids
  have hnotIn : d.id ∉ s.inflight.map (·.id) := by
    intro hmem
    refine hids.1 ?_
    simp only [map_add, mem_add]
    exact Or.inl (Or.inr hmem)
  have hnext : s.next d = { s with queue := rest, inflight := d ::ₘ s.inflight } := by
    simp [JobSporadicScheduler.next, emplace, if_neg hnotIn, hrest]
  have hcounted : (s.next d).counted = s.counted := by
    rw [hnext]
    simp [counted, hrest]
  constructor
  · rw [hcounted, h.counted_eq]
    rfl
  · rw [hcounted]
    exact h.ids
  · intro r hr
    exact (h.reserved_by r hr).cons rfl
  · intro d' hd'
    rw [hnext] at hd'
    obtain ⟨henqueued, hnone⟩ := h.queue_by d' (hrest ▸ mem_cons_of_mem hd')
    refine ⟨henqueued.cons _, List.forall_mem_cons.2 ⟨?_, hnone⟩⟩
    have hne : d.id ≠ d'.id := by
      intro heq
      refine hids.1 ?_
      simp only [map_add, mem_add]
      exact Or.inl (Or.inl (mem_map.2 ⟨d', hd', heq.symm⟩))
    simpa [returns] using hne
  · intro d' hd'
    rw [hnext] at hd'
    rcases mem_cons.1 hd' with rfl | hd'
    · exact List.mem_cons_self
    · exact List.mem_cons_of_mem _ (h.inflight_by d' hd')
  · intro d' hd'
    rcases List.mem_cons.1 hd' with heq | hd'
    · obtain rfl := SporadicCall.next.inj heq
      exact (h.queue_by _ hd).1.cons _
    · exact (h.returned_by d' hd').cons _
  · exact h.capacity_pos

theorem Ledger.complete (h : Ledger past s) (tid : Nat) :
    Ledger (.complete tid :: past) (s.complete tid) := by
  have hcounted : (s.complete tid).counted.filter (0 < ·.wcet) =
      outstanding (.complete tid :: past) := by
    rw [outstanding_complete, ← h.counted_eq]
    split
    · rename_i hreturned
      obtain ⟨call, hcall, hreturns⟩ := List.any_eq_true.1 hreturned
      have hqueue : s.queue.filter (·.id ≠ tid) = s.queue := by
        refine filter_eq_self.2 fun d hd heq => ?_
        have hnone := (h.queue_by d hd).2 call hcall
        rw [heq, hreturns] at hnone
        cases hnone
      have hreserved : (s.reserved.map reservedTask).filter (·.id ≠ tid) =
          s.reserved.map reservedTask := by
        refine filter_eq_self.2 fun d hd heq => ?_
        obtain ⟨r, hr, rfl⟩ := mem_map.1 hd
        have hnone := h.not_returned (h.reserved_by r hr).2 call hcall
        rw [show r.1 = tid from heq, hreturns] at hnone
        cases hnone
      have hall : (s.complete tid).counted = s.counted.filter (·.id ≠ tid) := by
        rw [counted, counted, filter_add, filter_add, hqueue, hreserved]
        rfl
      rw [hall, filter_comm]
    · rename_i hreturned
      have hinflight : s.inflight.filter (·.id ≠ tid) = s.inflight := by
        refine filter_eq_self.2 fun d hd heq => hreturned ?_
        exact List.any_eq_true.2 ⟨_, h.inflight_by d hd, by simp [returns, heq]⟩
      have hall : s.complete tid = s := by
        rw [JobSporadicScheduler.complete, hinflight]
      rw [hall]
  have hle : (s.complete tid).counted ≤ s.counted :=
    add_le_add_left (add_le_add_right (filter_le _ _) _) _
  constructor
  · exact hcounted
  · exact nodup_of_le (map_le_map hle) h.ids
  · exact fun r hr => (h.reserved_by r hr).cons rfl
  · exact h.queue_cons (by simp)
  · exact fun d hd => List.mem_cons_of_mem _ (h.inflight_by d (mem_filter.1 hd).1)
  · exact h.returned_cons (by simp)
  · exact h.capacity_pos

theorem ledger_start (capacity : Nat) : Ledger [] (create capacity) where
  counted_eq := rfl
  ids := nodup_zero
  reserved_by := fun _ hr => absurd hr (notMem_zero _)
  queue_by := fun _ hd => absurd hd (notMem_zero _)
  inflight_by := fun _ hd => absurd hd (notMem_zero _)
  returned_by := fun _ hd => absurd hd List.not_mem_nil
  capacity_pos := by
    simp only [create]
    split <;> omega

theorem Ledger.step (h : Ledger past s) (hstep : SporadicStep s call t)
    (hallowed : Allowed past call) : Ledger (call :: past) t := by
  cases hstep with
  | admits items now desc admitted _ hitems hcall =>
    obtain ⟨rfl, rfl, rfl⟩ | ⟨d, rfl, ⟨hwcet, rfl, rfl⟩ | ⟨hwcet, -, rfl⟩⟩ :=
      admit_cases h.capacity_pos hitems hcall
    · exact h.same (by simp) (fun _ _ => rfl) rfl
    · refine h.same (by simp) (fun _ _ => rfl) ?_
      exact (outstanding_admits _ _ _).trans (if_neg (by omega))
    · cases admitted with
      | false => exact h.same (by simp) (fun _ _ => rfl) rfl
      | true => exact h.reserve hwcet hallowed
  | enqueue items now desc queued _ hitems hcall =>
    obtain ⟨rfl, rfl, rfl⟩ | ⟨d, rfl, ⟨hreserved, rfl, rfl⟩ | ⟨hreserved, -, -, rfl⟩⟩ :=
      enqueue_cases h.capacity_pos hitems hcall
    · exact h.same (by simp) (fun _ _ => rfl) rfl
    · exact h.consume hreserved hallowed
    · cases queued with
      | false =>
        refine h.same (by simp) (fun r hr => ?_) rfl
        have hne : r.1 ≠ d.id := fun heq =>
          of_decide_eq_false hreserved (mem_map.2 ⟨r, hr, heq⟩)
        simpa [enqueues] using hne.symm
      | true => exact h.push hreserved hallowed
  | next desc htop => exact h.next htop.1
  | complete tid => exact h.complete tid

theorem ledger_history {capacity : Nat} (h : SporadicHistory capacity past s) : Ledger past s := by
  induction h with
  | start => exact ledger_start capacity
  | step h hstep hallowed ih => exact ih.step hstep hallowed

theorem capacity_step (hcapacity : 0 < s.capacity) (h : SporadicStep s call t) :
    t.capacity = s.capacity := by
  cases h with
  | admits items now desc admitted _ hitems hcall =>
    obtain ⟨-, -, rfl⟩ | ⟨d, -, ⟨-, -, rfl⟩ | ⟨-, -, rfl⟩⟩ := admit_cases hcapacity hitems hcall
    · rfl
    · rfl
    · cases admitted <;> rfl
  | enqueue items now desc queued _ hitems hcall =>
    obtain ⟨-, -, rfl⟩ | ⟨d, -, ⟨-, -, rfl⟩ | ⟨-, -, -, rfl⟩⟩ :=
      enqueue_cases hcapacity hitems hcall
    · rfl
    · rfl
    · cases queued <;> rfl
  | next | complete => rfl

theorem capacity_history {capacity : Nat} (h : SporadicHistory capacity past s) :
    s.capacity = (create capacity).capacity := by
  induction h with
  | start => rfl
  | step h hstep hallowed ih => rw [capacity_step (ledger_history h).capacity_pos hstep, ih]

/-- What the scheduler holds and answers once these calls have been made. -/
structure Bookkeeping (capacity : Nat) (past : List SporadicCall) (s : JobSporadicScheduler) :
    Prop where
  once : s.counted.filter (0 < ·.wcet) = outstanding past ∧ (s.counted.map (·.id)).Nodup
  earliest : ∀ d t, SporadicStep s (.next d) t →
    d ∈ s.queue ∧ ∀ other ∈ s.queue, d.deadline ≤ other.deadline
  admitted : ∀ now d ok t, SporadicStep s (.admits now (some d) ok) t →
    (ok = true ↔ d.wcet ≤ 0 ∨ Feasible (create capacity).capacity now (outstanding past) d)
  queued : ∀ now d ok t, Allowed past (.enqueue now (some d) ok) →
    SporadicStep s (.enqueue now (some d) ok) t →
    (ok = true ↔ d.wcet ≤ 0 ∨ d ∈ outstanding past ∨
      Feasible (create capacity).capacity now (outstanding past) d)
  returns : s.queue ≠ 0 → ∃ d, SporadicStep s (.next d) (s.next d)
  answers : ∀ now d, Fits (create capacity).capacity now (d ::ₘ outstanding past) →
    (∃ ok t, SporadicStep s (.admits now (some d) ok) t) ∧
      ∃ ok t, SporadicStep s (.enqueue now (some d) ok) t

/-- A task that may be enqueued and is outstanding has a reservation, and only such a task or one
that costs nothing has. -/
theorem Ledger.hasReserved_iff (h : Ledger past s) {ok : Bool}
    (hallowed : Allowed past (.enqueue now (some d) ok)) (hwcet : 0 < d.wcet) :
    s.hasReserved d.id = true ↔ d ∈ outstanding past := by
  obtain ⟨hnever, hsame⟩ := hallowed
  rw [hasReserved, decide_eq_true_iff, ← h.counted_eq, mem_filter]
  constructor
  · intro hmem
    obtain ⟨r, hr, hid⟩ := mem_map.1 hmem
    obtain ⟨⟨before, b, hadmits⟩⟩ := h.reserved_by r hr
    have htask : reservedTask r = d := hsame before _ b hadmits hid
    rw [← htask] at hwcet ⊢
    exact ⟨mem_add.2 (Or.inr (mem_map_of_mem _ hr)), hwcet⟩
  · rintro ⟨hmem⟩
    have hunqueued : ¬ EnqueuedBy past d := by
      rintro ⟨before, b, hcall⟩
      have := hnever _ hcall
      simp [enqueues] at this
    simp only [counted, mem_add, mem_map] at hmem
    rcases hmem with (hqueue | hinflight) | ⟨r, hr, rfl⟩
    · exact absurd (h.queue_by d hqueue).1 hunqueued
    · exact absurd (h.returned_by d (h.inflight_by d hinflight)) hunqueued
    · exact mem_map_of_mem _ hr

theorem exists_top (hqueue : s.queue ≠ 0) : ∃ d, s.Top d := by
  have hnonempty : s.queue.toFinset.Nonempty := by
    rwa [toFinset_nonempty]
  obtain ⟨d, hd, hfirst⟩ :=
    s.queue.toFinset.exists_min_image JobSporadicDescriptor.deadline hnonempty
  exact ⟨d, mem_toFinset.1 hd, fun d' hd' => hfirst d' (mem_toFinset.2 hd')⟩

/-- Calls whose test stays in range have a result. -/
theorem exists_answer (hcapacity : 0 < s.capacity)
    (hfits : Fits s.capacity now (d ::ₘ s.counted.filter (0 < ·.wcet))) :
    (∃ ok t, SporadicStep s (.admits now (some d) ok) t) ∧
      ∃ ok t, SporadicStep s (.enqueue now (some d) ok) t := by
  obtain ⟨items, hitems⟩ := exists_arranged s d
  obtain ⟨ok, htest⟩ := canAdmitUnlocked_isSome hcapacity hitems hfits
  have hgiven : ∀ d' ∈ some d, s.Arranged d' items := by
    rintro d' ⟨⟩
    exact hitems
  constructor
  · have hcall : ∃ result, s.admits items now (some d) = some result := by
      simp only [admits, htest]
      split
      · exact ⟨_, rfl⟩
      · split <;> exact ⟨_, rfl⟩
    obtain ⟨⟨admitted, t⟩, hcall⟩ := hcall
    exact ⟨admitted, t, .admits s items now _ admitted t hgiven hcall⟩
  · have hcall : ∃ result, s.enqueue items now (some d) = some result := by
      simp only [enqueue, htest]
      split <;> exact ⟨_, rfl⟩
    obtain ⟨⟨queued, t⟩, hcall⟩ := hcall
    exact ⟨queued, t, .enqueue s items now _ queued t hgiven hcall⟩

theorem bookkeeping {capacity : Nat} {past : List SporadicCall} {s : JobSporadicScheduler}
    (h : SporadicHistory capacity past s) : Bookkeeping capacity past s := by
  have hledger := ledger_history h
  have hcapacity := capacity_history h
  constructor
  · exact ⟨hledger.counted_eq, hledger.ids⟩
  · intro d t hstep
    cases hstep with
    | next _ htop => exact htop
  · intro now d ok t hstep
    cases hstep with
    | admits items _ _ _ _ hitems hcall =>
      obtain ⟨hnone, -⟩ | ⟨d', hd', ⟨hwcet, rfl, -⟩ | ⟨hwcet, hok, -⟩⟩ :=
        admit_cases hledger.capacity_pos hitems hcall
      · cases hnone
      · obtain rfl := Option.some.inj hd'
        simp [hwcet]
      · obtain rfl := Option.some.inj hd'
        rw [hok, hledger.counted_eq, hcapacity, or_iff_right (by omega)]
  · intro now d ok t hallowed hstep
    cases hstep with
    | enqueue items _ _ _ _ hitems hcall =>
      obtain ⟨hnone, -⟩ | ⟨d', hd', ⟨hreserved, rfl, -⟩ | ⟨hreserved, hfree, hok, -⟩⟩ :=
        enqueue_cases hledger.capacity_pos hitems hcall
      · cases hnone
      · obtain rfl := Option.some.inj hd'
        have hheld := hledger.hasReserved_iff hallowed
        refine iff_of_true rfl ?_
        by_cases hwcet : 0 < d.wcet
        · exact Or.inr (Or.inl ((hheld hwcet).1 hreserved))
        · exact Or.inl (by omega)
      · obtain rfl := Option.some.inj hd'
        by_cases hwcet : 0 < d.wcet
        · have hout : d ∉ outstanding past := by
            rw [← hledger.hasReserved_iff hallowed hwcet, hreserved]
            exact Bool.false_ne_true
          rw [hok hwcet, hledger.counted_eq, hcapacity, or_iff_right (by omega), or_iff_right hout]
        · exact iff_of_true (hfree (by omega)) (Or.inl (by omega))
  · intro hqueue
    obtain ⟨d, htop⟩ := exists_top hqueue
    exact ⟨d, .next s d htop⟩
  · intro now d hfits
    rw [← hcapacity, ← hledger.counted_eq] at hfits
    exact exists_answer hledger.capacity_pos hfits

theorem bookkeeping_admitted :
    Bookkeeping 1 [.admits 0 (some ⟨1, 100000, 10⟩) true] ((create 1).reserve ⟨1, 100000, 10⟩) := by
  refine bookkeeping (.step .start (.admits _ [⟨100000, 10⟩] _ _ _ _ ?_ rfl) ?_)
  · rintro d ⟨⟩
    exact ⟨List.pairwise_singleton _ _, rfl⟩
  · exact fun call hcall => absurd hcall List.not_mem_nil

/-- A task of no cost is admitted after its deadline. On two processors 1.5 microseconds count
as one, so 3 microseconds of work are refused that would fit. -/
theorem criterion_fails :
    (SporadicStep (create 1) (.admits 1 (some ⟨1, 0, 0⟩) true) (create 1) ∧
      ¬ ∀ task ∈ (⟨1, 0, 0⟩ : JobSporadicDescriptor) ::ₘ outstanding [], 1 ≤ task.deadline) ∧
    SporadicStep (create 2) (.admits 0 (some ⟨1, 1500, 3⟩) false) (create 2) ∧
      ∀ task ∈ (⟨1, 1500, 3⟩ : JobSporadicDescriptor) ::ₘ outstanding [], 0 ≤ task.deadline ∧
        1000 * demandOf (⟨1, 1500, 3⟩ ::ₘ outstanding []) task.deadline ≤
          2 * (task.deadline - 0) := by
  refine ⟨⟨.admits _ [⟨0, 0⟩] _ _ _ _ ?_ rfl, by decide⟩,
    .admits _ [⟨1500, 3⟩] _ _ _ _ ?_ rfl, by decide⟩
  · rintro d ⟨⟩
    exact ⟨List.pairwise_singleton _ _, rfl⟩
  · rintro d ⟨⟩
    exact ⟨List.pairwise_singleton _ _, rfl⟩

end JobSporadicScheduler

end JobThreads
