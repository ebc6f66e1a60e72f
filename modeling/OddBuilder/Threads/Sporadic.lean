import OddBuilder.Library.Demand

/-!
# The sporadic scheduler

Deadline, cost and admission. Times are nanoseconds and costs microseconds, both
in 64 bits: where the test computes out of their range it has no result. The
priority queue and the hash maps are collections without an order, and the test
is given its tickets in the order that they have behind the sort, whatever that
is among equal deadlines.
-/

namespace JobThreads

open Demand Multiset

structure JobSporadicDescriptor where
  id : Nat
  deadline : Int
  wcet : Int
  deriving DecidableEq

/-- A value that a signed 64-bit integer has. -/
def int64 (n : Int) : Option Int := if -2 ^ 63 ≤ n ∧ n < 2 ^ 63 then some n else none

structure Ticket where
  dl : Int
  cost_us : Int

structure Reservation where
  deadline : Int
  wcet : Int
  deriving DecidableEq

structure JobSporadicScheduler where
  queue : Multiset JobSporadicDescriptor := 0
  inflight : Multiset JobSporadicDescriptor := 0
  reserved : Multiset (Nat × Reservation) := 0
  capacity : Nat := 1

namespace JobSporadicScheduler

/-- `JobSporadicScheduler(capacity)` -/
def create (capacity : Nat) : JobSporadicScheduler :=
  { capacity := if capacity = 0 then 1 else capacity }

/-- The microseconds of a duration, without its fraction. -/
def microseconds (ns : Int) : Int := ns.tdiv 1000

/-- The loop over the sorted tickets. -/
def sumDemand (cap now : Int) : Int → List Ticket → Option Bool
  | _, [] => some true
  | demand_us, it :: items => do
    let demand_us ← int64 (demand_us + it.cost_us)
    let left ← int64 (it.dl - now)
    let avail_us := microseconds left
    if avail_us < 0 then return false
    else do
      let supply_us ← int64 (cap * avail_us)
      if supply_us < demand_us then return false else sumDemand cap now demand_us items

def canAdmitUnlocked (s : JobSporadicScheduler) (items : List Ticket)
    (now newDeadline newWcet : Int) : Option Bool :=
  if newWcet ≤ 0 then some true
  else if newDeadline ≤ now then some false
  else sumDemand (max 1 s.capacity) now 0 items

/-- `m_reserved[id] = Reservation{deadline, wcet}` -/
def reserve (s : JobSporadicScheduler) (desc : JobSporadicDescriptor) : JobSporadicScheduler :=
  { s with
    reserved := (desc.id, ⟨desc.deadline, desc.wcet⟩) ::ₘ s.reserved.filter (·.1 ≠ desc.id) }

/-- Descriptors of another kind are admitted. -/
def admits (s : JobSporadicScheduler) (items : List Ticket) (now : Int)
    (desc : Option JobSporadicDescriptor) : Option (Bool × JobSporadicScheduler) :=
  match desc with
  | none => some (true, s)
  | some desc =>
    if desc.wcet ≤ 0 then some (true, s)
    else if desc.deadline ≤ now then some (false, s)
    else do
      let ok ← s.canAdmitUnlocked items now desc.deadline desc.wcet
      return if ok then (true, s.reserve desc) else (false, s)

/-- Something is reserved for the id. -/
def hasReserved (s : JobSporadicScheduler) (id : Nat) : Bool := decide (id ∈ s.reserved.map (·.1))

/-- Whether the descriptor was queued. Those of another kind are dropped. -/
def enqueue (s : JobSporadicScheduler) (items : List Ticket) (now : Int)
    (desc : Option JobSporadicDescriptor) : Option (Bool × JobSporadicScheduler) :=
  match desc with
  | none => some (false, s)
  | some desc =>
    if s.hasReserved desc.id then
      some (true, { s with
        reserved := s.reserved.filter (·.1 ≠ desc.id), queue := desc ::ₘ s.queue })
    else do
      let ok ← s.canAdmitUnlocked items now desc.deadline desc.wcet
      return if ok then (true, { s with queue := desc ::ₘ s.queue }) else (false, s)

/-- A task that may be at the top of the priority queue. -/
def Top (s : JobSporadicScheduler) (desc : JobSporadicDescriptor) : Prop :=
  desc ∈ s.queue ∧ ∀ other ∈ s.queue, desc.deadline ≤ other.deadline

/-- `m_inflight.emplace(id, desc)` -/
def emplace (inflight : Multiset JobSporadicDescriptor) (desc : JobSporadicDescriptor) :
    Multiset JobSporadicDescriptor :=
  if desc.id ∈ inflight.map (·.id) then inflight else desc ::ₘ inflight

/-- `next` once the top of the queue is chosen. -/
def next (s : JobSporadicScheduler) (desc : JobSporadicDescriptor) : JobSporadicScheduler :=
  { s with queue := s.queue.erase desc, inflight := emplace s.inflight desc }

def complete (s : JobSporadicScheduler) (tid : Nat) : JobSporadicScheduler :=
  { s with inflight := s.inflight.filter (·.id ≠ tid) }

/-- The tickets that the test collects, those that cost nothing left out. -/
def tickets (s : JobSporadicScheduler) : Multiset Ticket :=
  let pending := (s.queue + s.inflight).map fun desc => Ticket.mk desc.deadline desc.wcet
  let held := s.reserved.map fun r => Ticket.mk r.2.deadline r.2.wcet
  (pending + held).filter (0 < ·.cost_us)

/-- The tickets as the sort leaves them. -/
def Arranged (s : JobSporadicScheduler) (desc : JobSporadicDescriptor) (items : List Ticket) :
    Prop :=
  items.Pairwise (fun a b => a.dl ≤ b.dl) ∧
    (items : Multiset Ticket) = ⟨desc.deadline, desc.wcet⟩ ::ₘ s.tickets

end JobSporadicScheduler

/-- A call with its time, its argument and its result. -/
inductive SporadicCall where
  | admits (now : Int) (desc : Option JobSporadicDescriptor) (admitted : Bool)
  | enqueue (now : Int) (desc : Option JobSporadicDescriptor) (queued : Bool)
  | next (desc : JobSporadicDescriptor)
  | complete (tid : Nat)

open JobSporadicScheduler in
/-- What a call can do, in any order of the maps and of equal deadlines. -/
inductive SporadicStep : JobSporadicScheduler → SporadicCall → JobSporadicScheduler → Prop where
  | admits (s items now desc admitted t) (hitems : ∀ d ∈ desc, s.Arranged d items)
      (h : s.admits items now desc = some (admitted, t)) :
      SporadicStep s (.admits now desc admitted) t
  | enqueue (s items now desc queued t) (hitems : ∀ d ∈ desc, s.Arranged d items)
      (h : s.enqueue items now desc = some (queued, t)) :
      SporadicStep s (.enqueue now desc queued) t
  | next (s desc) (h : s.Top desc) : SporadicStep s (.next desc) (s.next desc)
  | complete (s tid) : SporadicStep s (.complete tid) (s.complete tid)

namespace JobSporadicScheduler

variable {items : List Ticket} {n now cap : Int} {s : JobSporadicScheduler}
  {desc : JobSporadicDescriptor}

theorem int64_eq {m : Int} (h : int64 n = some m) : m = n := by
  unfold int64 at h
  split at h
  · exact (Option.some.inj h).symm
  · cases h

/-- A result of the loop: every prefix has been compared with its deadline. -/
theorem sumDemand_iff {start : Int} {ok : Bool} (h : sumDemand cap now start items = some ok) :
    ok = true ↔ (∀ it ∈ items, 0 ≤ microseconds (it.dl - now)) ∧
      Passes Ticket.dl Ticket.cost_us (fun d => cap * microseconds (d - now)) start items := by
  induction items generalizing start with
  | nil =>
    obtain rfl := Option.some.inj h
    simp [Passes]
  | cons it items ih =>
    rw [sumDemand] at h
    simp only at h
    obtain ⟨demand_us, hdemand, h⟩ := Option.bind_eq_some_iff.1 h
    obtain ⟨left, hleft, h⟩ := Option.bind_eq_some_iff.1 h
    obtain rfl := int64_eq hdemand
    obtain rfl := int64_eq hleft
    rw [Passes, List.forall_mem_cons]
    split at h
    · obtain rfl := Option.some.inj h
      simp only [Bool.false_eq_true, false_iff]
      rintro ⟨⟨hhead⟩⟩
      omega
    · obtain ⟨supply_us, hsupply, h⟩ := Option.bind_eq_some_iff.1 h
      obtain rfl := int64_eq hsupply
      split at h
      · obtain rfl := Option.some.inj h
        simp only [Bool.false_eq_true, false_iff]
        rintro ⟨-⟩
        omega
      · rw [ih h]
        constructor
        · rintro ⟨htail, hpasses⟩
          exact ⟨⟨by omega, htail⟩, by omega, hpasses⟩
        · rintro ⟨⟨-, htail⟩, -, hpasses⟩
          exact ⟨htail, hpasses⟩

theorem int64_isSome (h : -2 ^ 63 ≤ n ∧ n < 2 ^ 63) : int64 n = some n := if_pos h

theorem sumDemand_isSome {start : Int} (hcap : 0 ≤ cap) (hstart : 0 ≤ start)
    (hcosts : ∀ it ∈ items, 0 ≤ it.cost_us)
    (htotal : start + ((items : Multiset Ticket).map (·.cost_us)).sum < 2 ^ 63)
    (htimes : ∀ it ∈ items, (-2 ^ 63 ≤ it.dl - now ∧ it.dl - now < 2 ^ 63) ∧
      cap * microseconds (it.dl - now) < 2 ^ 63) :
    ∃ ok, sumDemand cap now start items = some ok := by
  induction items generalizing start with
  | nil => exact ⟨true, rfl⟩
  | cons it items ih =>
    obtain ⟨hcost, hcosts⟩ := List.forall_mem_cons.1 hcosts
    obtain ⟨⟨hleft⟩, htimes⟩ := List.forall_mem_cons.1 htimes
    rw [← cons_coe, map_cons, sum_cons] at htotal
    have hrest : 0 ≤ ((items : Multiset Ticket).map (·.cost_us)).sum := by
      refine sum_nonneg fun c hc => ?_
      obtain ⟨it', hit', rfl⟩ := mem_map.1 hc
      exact hcosts it' hit'
    have hdemand : int64 (start + it.cost_us) = some (start + it.cost_us) :=
      int64_isSome (by omega)
    simp only [sumDemand, Option.bind_eq_bind, hdemand, int64_isSome hleft, Option.bind_some]
    split
    · exact ⟨false, rfl⟩
    · have hsupplied := Int.mul_nonneg hcap (show 0 ≤ microseconds (it.dl - now) by omega)
      rw [int64_isSome (by omega), Option.bind_some]
      split
      · exact ⟨false, rfl⟩
      · exact ih (by omega) hcosts (by omega) htimes

/-- The microseconds of the tasks due by `d`. -/
abbrev demandOf (tasks : Multiset JobSporadicDescriptor) (d : Int) : Int :=
  demand JobSporadicDescriptor.deadline JobSporadicDescriptor.wcet tasks d

/-- No deadline has passed, and the tasks due by each of them cost at most the microseconds that
all processors have until then. -/
def Feasible (capacity now : Int) (outstanding : Multiset JobSporadicDescriptor)
    (desc : JobSporadicDescriptor) : Prop :=
  ∀ task ∈ desc ::ₘ outstanding, now ≤ task.deadline ∧
    demandOf (desc ::ₘ outstanding) task.deadline ≤
      capacity * microseconds (task.deadline - now)

def ticket (desc : JobSporadicDescriptor) : Ticket := ⟨desc.deadline, desc.wcet⟩

/-- The task that a reservation is for. -/
def reservedTask (r : Nat × Reservation) : JobSporadicDescriptor := ⟨r.1, r.2.deadline, r.2.wcet⟩

/-- The tasks that are reserved for, queued or in flight. -/
def counted (s : JobSporadicScheduler) : Multiset JobSporadicDescriptor :=
  s.queue + s.inflight + s.reserved.map reservedTask

theorem tickets_eq (s : JobSporadicScheduler) :
    s.tickets = (s.counted.filter (0 < ·.wcet)).map ticket := by
  simp only [tickets, counted, filter_add, filter_map, map_add, map_map]
  rfl

theorem exists_arranged (s : JobSporadicScheduler) (desc : JobSporadicDescriptor) :
    ∃ items, s.Arranged desc items := by
  generalize hall : (⟨desc.deadline, desc.wcet⟩ : Ticket) ::ₘ s.tickets = tickets
  refine ⟨tickets.toList.mergeSort fun a b => decide (a.dl ≤ b.dl), ?_, ?_⟩
  · refine (List.pairwise_mergeSort (fun a b c => ?_) (fun a b => ?_) _).imp of_decide_eq_true
    · simp only [decide_eq_true_eq]
      exact fun hab hbc => hab.trans hbc
    · simp only [Bool.or_eq_true, decide_eq_true_eq]
      exact le_total _ _
  · rw [coe_eq_coe.2 (List.mergeSort_perm _ _), coe_toList, hall]

/-- The tickets are those of the tasks counted and of the new one. -/
theorem Arranged.eq_map (h : s.Arranged desc items) :
    (items : Multiset Ticket) = (desc ::ₘ s.counted.filter (0 < ·.wcet)).map ticket := by
  rw [h.2, tickets_eq, map_cons]
  rfl

theorem Arranged.forall_iff (h : s.Arranged desc items) (P : Ticket → Prop) :
    (∀ it ∈ items, P it) ↔
      ∀ task ∈ desc ::ₘ s.counted.filter (0 < ·.wcet), P (ticket task) := by
  have hcoe : (∀ it ∈ items, P it) ↔ ∀ it ∈ (items : Multiset Ticket), P it := Iff.rfl
  rw [hcoe, h.eq_map]
  exact forall_mem_map_iff

/-- The numbers that the test computes for these tasks are in range. -/
def Fits (capacity now : Int) (tasks : Multiset JobSporadicDescriptor) : Prop :=
  (tasks.map (·.wcet)).sum < 2 ^ 63 ∧ ∀ task ∈ tasks,
    (-2 ^ 63 ≤ task.deadline - now ∧ task.deadline - now < 2 ^ 63) ∧
      capacity * microseconds (task.deadline - now) < 2 ^ 63

theorem canAdmitUnlocked_isSome (hcapacity : 0 < s.capacity) (hitems : s.Arranged desc items)
    (hfits : Fits s.capacity now (desc ::ₘ s.counted.filter (0 < ·.wcet))) :
    ∃ ok, s.canAdmitUnlocked items now desc.deadline desc.wcet = some ok := by
  unfold canAdmitUnlocked
  split
  · exact ⟨true, rfl⟩
  · split
    · exact ⟨false, rfl⟩
    · have hcap : max 1 (s.capacity : Int) = s.capacity := by omega
      rw [hcap]
      refine sumDemand_isSome (by omega) le_rfl ?_ ?_ ((hitems.forall_iff _).2 hfits.2)
      · rw [hitems.forall_iff, forall_mem_cons]
        refine ⟨by simp only [ticket]; omega, fun task htask => ?_⟩
        exact (mem_filter.1 htask).2.le
      · rw [hitems.eq_map, map_map, Int.zero_add]
        exact hfits.1

theorem pos_of_microseconds (h : 0 < microseconds n) : 0 < n := by
  by_contra hle
  have hneg := Int.tdiv_nonneg (show 0 ≤ -n by omega) (show (0 : Int) ≤ 1000 by decide)
  rw [Int.neg_tdiv] at hneg
  unfold microseconds at h
  omega

theorem microseconds_pos_of_le {c : Int} (hcap : 0 < cap) (hc : 0 < c)
    (h : c ≤ cap * microseconds n) : 0 < microseconds n := by
  by_contra hle
  have := Int.mul_nonneg hcap.le (show 0 ≤ -microseconds n by omega)
  rw [Int.mul_neg] at this
  omega

/-- However the tickets are arranged, the test is the demand criterion. -/
theorem canAdmitUnlocked_iff {ok : Bool} (hcapacity : 0 < s.capacity) (hwcet : 0 < desc.wcet)
    (hitems : s.Arranged desc items)
    (h : s.canAdmitUnlocked items now desc.deadline desc.wcet = some ok) :
    ok = true ↔ Feasible s.capacity now (s.counted.filter (0 < ·.wcet)) desc := by
  have hpositive : ∀ task ∈ desc ::ₘ s.counted.filter (0 < ·.wcet), 0 < task.wcet := by
    intro task htask
    rcases mem_cons.1 htask with rfl | htask
    · exact hwcet
    · exact (mem_filter.1 htask).2
  have hdemand : ∀ d, demand Ticket.dl Ticket.cost_us (items : Multiset Ticket) d =
      demandOf (desc ::ₘ s.counted.filter (0 < ·.wcet)) d := by
    intro d
    rw [hitems.eq_map, demand_map]
    rfl
  have hcosts : ∀ it ∈ items, 0 ≤ it.cost_us := by
    rw [hitems.forall_iff]
    exact fun task htask => (hpositive task htask).le
  have hcap : max 1 (s.capacity : Int) = s.capacity := by omega
  generalize hothers : s.counted.filter (0 < ·.wcet) = others at hpositive hdemand ⊢
  have hself : ∀ task ∈ desc ::ₘ others, 0 < demandOf (desc ::ₘ others) task.deadline := by
    intro task htask
    have hcost : task.wcet ≤ demandOf (desc ::ₘ others) task.deadline :=
      cost_le_demand (fun task htask => (hpositive task htask).le) htask
    have := hpositive task htask
    omega
  rw [canAdmitUnlocked, if_neg (by omega)] at h
  split at h
  · obtain rfl := Option.some.inj h
    simp only [Bool.false_eq_true, false_iff]
    intro hfeasible
    have hdesc := hfeasible desc (mem_cons_self _ _)
    have hzero : desc.deadline - now = 0 := by omega
    have hcost := hself desc (mem_cons_self _ _)
    rw [hzero] at hdesc
    simp only [microseconds, Int.zero_tdiv] at hdesc
    omega
  · rw [hcap] at h
    rw [sumDemand_iff h, passes_iff hitems.1 hcosts, ← forall₂_and, hitems.forall_iff, hothers]
    refine forall₂_congr fun task htask => ?_
    have hcost := hself task htask
    simp only [hdemand, ticket, Int.zero_add]
    constructor
    · rintro ⟨-, hle⟩
      have hpos := pos_of_microseconds (microseconds_pos_of_le (by omega) hcost hle)
      exact ⟨by omega, hle⟩
    · rintro ⟨hdue, hle⟩
      exact ⟨(microseconds_pos_of_le (by omega) hcost hle).le, hle⟩

end JobSporadicScheduler

end JobThreads
