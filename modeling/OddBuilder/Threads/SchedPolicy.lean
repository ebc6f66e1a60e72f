import Mathlib.Algebra.Order.Group.Multiset
import Mathlib.Data.Fintype.BigOperators
import Mathlib.Data.List.Basic

/-!
# JobBoundedMPMCQueue

The queue under one mutex: an operation is one atomic step. A `push` on a full
queue waits, which here is the absence of a result.
-/

namespace JobThreads

structure JobBoundedMPMCQueue (α : Type) where
  cap : Nat
  deque : List α
  closed : Bool

namespace JobBoundedMPMCQueue

variable {α : Type}

def create (cap : Nat) : JobBoundedMPMCQueue α := ⟨cap, [], false⟩

/-- `none` is a call that still waits for room. -/
def push (q : JobBoundedMPMCQueue α) (value : α) : Option (Bool × JobBoundedMPMCQueue α) :=
  if q.closed then some (false, q)
  else if q.deque.length < q.cap then some (true, { q with deque := q.deque ++ [value] })
  else none

def tryPop (q : JobBoundedMPMCQueue α) : Option α × JobBoundedMPMCQueue α :=
  match q.deque with
  | [] => (none, q)
  | value :: rest => (some value, { q with deque := rest })

def isEmpty (q : JobBoundedMPMCQueue α) : Bool := q.deque.isEmpty

variable {q q' : JobBoundedMPMCQueue α} {value : α}

/-- An open queue takes the value at its back, or lets the caller wait. -/
theorem push_of_open (hopen : q.closed = false) {ok : Bool} (h : q.push value = some (ok, q')) :
    ok = true ∧ q' = { q with deque := q.deque ++ [value] } := by
  by_cases hroom : q.deque.length < q.cap
  · rw [push, if_neg (by simp [hopen]), if_pos hroom] at h
    obtain ⟨rfl, rfl⟩ := Prod.mk.inj (Option.some.inj h)
    exact ⟨rfl, rfl⟩
  · simp [push, hopen, hroom] at h

theorem push_true (h : q.push value = some (true, q')) : q'.deque = q.deque ++ [value] := by
  by_cases hclosed : q.closed = true
  · rw [push, if_pos hclosed] at h
    cases h
  · rw [(push_of_open (by simpa using hclosed) h).2]

theorem tryPop_some (h : q.tryPop = (some value, q')) :
    q.deque = value :: q'.deque ∧ q'.closed = q.closed ∧ q'.cap = q.cap := by
  cases hdeque : q.deque with
  | nil => simp [tryPop, hdeque] at h
  | cons front rest =>
    simp only [tryPop, hdeque] at h
    obtain ⟨rfl⟩ := h
    exact ⟨rfl, rfl, rfl⟩

end JobBoundedMPMCQueue

end JobThreads

/-!
## ISchedPolicy

A scheduler as the pool uses it. `enqueue` and `next` may take several atomic
steps, those of any threads in any order; `admit` and `complete` are one. What a
policy decides by is its own affair: all that is fixed is where descriptors are,
in the scheduler or with an operation under way, and that none comes from
nowhere.
-/

namespace JobThreads

/-- A descriptor is named by its id and by the `submit` that brought it. -/
structure Descriptor where
  id : Nat
  call : Nat
  deriving DecidableEq

/-- `α` is where a thread is in `enqueue`, `β` where one is in `next`. -/
structure SchedPolicy (σ α β : Type) where
  create : σ
  size : σ → Nat
  admits : σ → Descriptor → Bool → σ → Prop
  enqueue : Descriptor → α
  enqueueStep : σ → α → σ → α → Prop
  enqueued : α → Bool
  next : Nat → β
  nextStep : σ → β → σ → β → Prop
  nextResult : β → Option (Option Descriptor)
  complete : σ → Nat → σ → Prop
  held : σ → Multiset Descriptor
  offered : α → Multiset Descriptor
  taken : β → Multiset Descriptor
  held_create : held create = 0
  held_admits {s d ok s'} (h : admits s d ok s') : held s' = held s
  held_complete {s id s'} (h : complete s id s') : held s' = held s
  offered_enqueue (d) : offered (enqueue d) = {d}
  offered_enqueued {x} (h : enqueued x = true) : offered x = 0
  offered_step {s x s' x'} (h : enqueueStep s x s' x') : offered x' ≤ offered x
  held_enqueue {s x s' x'} (h : enqueueStep s x s' x') : held s' + offered x' ≤ held s + offered x
  taken_next (wid) : taken (next wid) = 0
  taken_result {y r} (h : nextResult y = some r) : taken y = Multiset.ofList r.toList
  held_next {s y s' y'} (h : nextStep s y s' y') : held s' + taken y' ≤ held s + taken y
  held_step {s y s' y'} (h : nextStep s y s' y') : held s' ≤ held s

namespace SchedPolicy

variable {σ α β : Type} (P : SchedPolicy σ α β)

/-- No descriptor is dropped. -/
structure Lossless : Prop where
  enqueue {s x s' x'} (h : P.enqueueStep s x s' x') :
    P.held s' + P.offered x' = P.held s + P.offered x
  next {s y s' y'} (h : P.nextStep s y s' y') : P.held s' + P.taken y' = P.held s + P.taken y

/-- The size is zero only when nothing is held. -/
def Exact : Prop := ∀ s, P.size s = 0 → P.held s = 0

end SchedPolicy

/-- `enqueue` and `next` are sections of one mutex, and `next` waits for a descriptor. Descriptors
of another kind are dropped. -/
def FifoScheduler (isTask : Descriptor → Bool) :
    SchedPolicy (List Descriptor) (Option Descriptor) (Option Descriptor) where
  create := []
  size := List.length
  admits s _ ok s' := ok = true ∧ s' = s
  enqueue := some
  enqueueStep s x s' x' :=
    ∃ d, x = some d ∧ x' = none ∧ s' = if isTask d then s ++ [d] else s
  enqueued x := x.isNone
  next _ := none
  nextStep s y s' y' := ∃ d, y = none ∧ y' = some d ∧ s = d :: s'
  nextResult y := y.map some
  complete s _ s' := s' = s
  held s := Multiset.ofList s
  offered x := Multiset.ofList x.toList
  taken y := Multiset.ofList y.toList
  held_create := rfl
  held_admits h := by rw [h.2]
  held_complete h := by rw [h]
  offered_enqueue _ := rfl
  offered_enqueued h := by
    rw [Option.isNone_iff_eq_none.1 h]
    rfl
  offered_step := by
    rintro s _ s' _ ⟨d, rfl, rfl, -⟩
    exact Multiset.zero_le _
  held_enqueue := by
    rintro s _ _ _ ⟨d, rfl, rfl, rfl⟩
    rw [Option.toList_none, Option.toList_some, Multiset.coe_nil, add_zero]
    split
    · exact (Multiset.coe_add s [d]).ge
    · exact Multiset.le_add_right _ _
  taken_next _ := rfl
  taken_result := by
    rintro (_ | d) r h
    · cases h
    · obtain rfl := Option.some.inj h
      rfl
  held_next := by
    rintro _ _ s' _ ⟨d, rfl, rfl, rfl⟩
    rw [Option.toList_none, Option.toList_some, Multiset.coe_nil, add_zero, Multiset.coe_add]
    exact (Multiset.coe_eq_coe.2 (List.perm_append_singleton d s')).le
  held_step := by
    rintro _ _ s' _ ⟨d, rfl, rfl, rfl⟩
    exact Multiset.coe_le.2 (List.sublist_cons_self d s').subperm

theorem FifoScheduler.lossless {isTask : Descriptor → Bool} (h : ∀ d, isTask d = true) :
    (FifoScheduler isTask).Lossless where
  enqueue := by
    rintro s _ _ _ ⟨d, rfl, rfl, rfl⟩
    rw [if_pos (h d)]
    change Multiset.ofList (s ++ [d]) + 0 = Multiset.ofList s + Multiset.ofList [d]
    rw [add_zero, Multiset.coe_add]
  next := by
    rintro _ _ s' _ ⟨d, rfl, rfl, rfl⟩
    change Multiset.ofList s' + Multiset.ofList [d] = Multiset.ofList (d :: s') + 0
    rw [add_zero]
    exact Multiset.coe_eq_coe.2 (List.perm_append_singleton d s')

theorem FifoScheduler.exact (isTask : Descriptor → Bool) : (FifoScheduler isTask).Exact := by
  intro s hsize
  rw [List.length_eq_zero_iff.1 hsize]
  rfl

structure WorkStealing (n : Nat) where
  queue : Fin n → JobBoundedMPMCQueue Descriptor
  totalSize : BitVec 64
  submitCounter : Nat

namespace WorkStealing

inductive Enqueue (n : Nat) where
  | targeting (d : Descriptor)
  | pushing (d : Descriptor) (target : Fin n)
  | counting
  | returned

inductive Next where
  | testing (wid : Nat)
  | scanning (wid i : Nat)
  | popped (d : Descriptor)
  | returned (result : Option Descriptor)

variable {n : Nat}

def setQueue (s : WorkStealing n) (i : Fin n) (q : JobBoundedMPMCQueue Descriptor) :
    WorkStealing n :=
  { s with queue := Function.update s.queue i q }

/-- The queues are locked one by one, and the size is counted after a push. -/
inductive EnqueueStep (isTask : Descriptor → Bool) :
    WorkStealing n → Enqueue n → WorkStealing n → Enqueue n → Prop where
  | drop (s d) (h : isTask d = false) : EnqueueStep isTask s (.targeting d) s .returned
  | target (s d i) (h : isTask d = true) (hi : i.val = s.submitCounter % n) :
      EnqueueStep isTask s (.targeting d)
        { s with submitCounter := (s.submitCounter + 1) % 2 ^ 64 } (.pushing d i)
  | push (s d i q) (h : (s.queue i).push d = some (true, q)) :
      EnqueueStep isTask s (.pushing d i) (s.setQueue i q) .counting
  | pushClosed (s d i q) (h : (s.queue i).push d = some (false, q)) :
      EnqueueStep isTask s (.pushing d i) s .returned
  | count (s) : EnqueueStep isTask s .counting { s with totalSize := s.totalSize + 1 } .returned

inductive NextStep : WorkStealing n → Next → WorkStealing n → Next → Prop where
  | empty (s wid) (h : s.totalSize = 0) : NextStep s (.testing wid) s (.returned none)
  | scan (s wid) (h : s.totalSize ≠ 0) : NextStep s (.testing wid) s (.scanning wid 0)
  | pop (s wid i j d q) (hj : j.val = (wid + i) % n) (h : (s.queue j).tryPop = (some d, q)) :
      NextStep s (.scanning wid i) (s.setQueue j q) (.popped d)
  | steal (s wid i j q) (hj : j.val = (wid + i) % n) (h : (s.queue j).tryPop = (none, q))
      (hi : i + 1 < n) : NextStep s (.scanning wid i) s (.scanning wid (i + 1))
  | miss (s wid i j q) (hj : j.val = (wid + i) % n) (h : (s.queue j).tryPop = (none, q))
      (hi : ¬ i + 1 < n) : NextStep s (.scanning wid i) s (.returned none)
  | uncount (s d) :
      NextStep s (.popped d) { s with totalSize := s.totalSize - 1 } (.returned (some d))

def held (s : WorkStealing n) : Multiset Descriptor :=
  ∑ i, Multiset.ofList (s.queue i).deque

def Enqueue.offered : Enqueue n → Multiset Descriptor
  | .targeting d => {d}
  | .pushing d _ => {d}
  | _ => 0

def Next.taken : Next → Multiset Descriptor
  | .popped d => {d}
  | .returned result => Multiset.ofList result.toList
  | _ => 0

def Enqueue.isReturned : Enqueue n → Bool
  | .returned => true
  | _ => false

def Next.result : Next → Option (Option Descriptor)
  | .returned result => some result
  | _ => none

theorem held_setQueue (s : WorkStealing n) (i : Fin n) (q : JobBoundedMPMCQueue Descriptor) :
    (s.setQueue i q).held + Multiset.ofList (s.queue i).deque =
      s.held + Multiset.ofList q.deque := by
  have hsplit := fun queue : Fin n → JobBoundedMPMCQueue Descriptor =>
    Finset.add_sum_erase Finset.univ (fun j => Multiset.ofList (queue j).deque) (Finset.mem_univ i)
  have hothers : ∑ j ∈ Finset.univ.erase i, Multiset.ofList ((s.setQueue i q).queue j).deque =
      ∑ j ∈ Finset.univ.erase i, Multiset.ofList (s.queue j).deque := by
    refine Finset.sum_congr rfl fun j hj => ?_
    simp [setQueue, Function.update_of_ne (Finset.ne_of_mem_erase hj)]
  have hself : (s.setQueue i q).queue i = q := Function.update_self _ _ _
  rw [held, held, ← hsplit (s.setQueue i q).queue, ← hsplit s.queue, hothers, hself]
  ac_rfl

theorem held_push {s : WorkStealing n} {i : Fin n} {d : Descriptor}
    {q : JobBoundedMPMCQueue Descriptor} (h : (s.queue i).push d = some (true, q)) :
    (s.setQueue i q).held = s.held + {d} := by
  have hset := held_setQueue s i q
  rw [JobBoundedMPMCQueue.push_true h, ← Multiset.coe_add, ← add_assoc, add_right_comm] at hset
  exact add_right_cancel hset

theorem held_pop {s : WorkStealing n} {i : Fin n} {d : Descriptor}
    {q : JobBoundedMPMCQueue Descriptor} (h : (s.queue i).tryPop = (some d, q)) :
    (s.setQueue i q).held + {d} = s.held := by
  have hset := held_setQueue s i q
  rw [(JobBoundedMPMCQueue.tryPop_some h).1, ← Multiset.cons_coe, ← Multiset.singleton_add,
    ← add_assoc] at hset
  exact add_right_cancel hset

theorem EnqueueStep.offered_le {isTask : Descriptor → Bool} {s s' : WorkStealing n}
    {x x' : Enqueue n} (h : EnqueueStep isTask s x s' x') : x'.offered ≤ x.offered := by
  cases h with
  | target => exact le_refl _
  | _ => exact Multiset.zero_le _

/-- Only descriptors of another kind, and all once the queues are closed, are dropped. -/
theorem EnqueueStep.held_cases {isTask : Descriptor → Bool} {s s' : WorkStealing n}
    {x x' : Enqueue n} (h : EnqueueStep isTask s x s' x') :
    s'.held + x'.offered = s.held + x.offered ∨
      s' = s ∧ x' = .returned ∧ ((∃ d, x = .targeting d ∧ isTask d = false) ∨
        ∃ d i q, x = .pushing d i ∧ (s.queue i).push d = some (false, q)) := by
  cases h with
  | drop _ hkind => exact Or.inr ⟨rfl, rfl, Or.inl ⟨_, rfl, hkind⟩⟩
  | target => exact Or.inl rfl
  | push d i q hpush =>
    left
    rw [held_push hpush]
    exact Multiset.add_zero _
  | pushClosed d i q hpush => exact Or.inr ⟨rfl, rfl, Or.inr ⟨_, _, _, rfl, hpush⟩⟩
  | count => exact Or.inl rfl

theorem NextStep.held_eq {s s' : WorkStealing n} {y y' : Next} (h : NextStep s y s' y') :
    s'.held + y'.taken = s.held + y.taken ∧ s'.held ≤ s.held := by
  cases h with
  | pop wid i j d q hj hpop =>
    rw [← held_pop hpop]
    exact ⟨(Multiset.add_zero _).symm, Multiset.le_add_right _ _⟩
  | _ => exact ⟨rfl, le_refl _⟩

end WorkStealing

/-- `next` looks into the queue of the worker, then into all others. -/
def JobWorkStealingScheduler (n cap : Nat) (isTask : Descriptor → Bool) :
    SchedPolicy (WorkStealing n) (WorkStealing.Enqueue n) WorkStealing.Next where
  create := ⟨fun _ => .create cap, 0, 0⟩
  size s := s.totalSize.toNat
  admits s _ ok s' := ok = true ∧ s' = s
  enqueue := .targeting
  enqueueStep := WorkStealing.EnqueueStep isTask
  enqueued := WorkStealing.Enqueue.isReturned
  next := .testing
  nextStep := WorkStealing.NextStep
  nextResult := WorkStealing.Next.result
  complete s _ s' := s' = s
  held := WorkStealing.held
  offered := WorkStealing.Enqueue.offered
  taken := WorkStealing.Next.taken
  held_create := Finset.sum_eq_zero fun _ _ => rfl
  held_admits h := by rw [h.2]
  held_complete h := by rw [h]
  offered_enqueue _ := rfl
  offered_enqueued := by
    rintro (_ | _ | _ | _) h
    all_goals first | rfl | cases h
  offered_step := WorkStealing.EnqueueStep.offered_le
  held_enqueue h := by
    rcases h.held_cases with heq | ⟨rfl, rfl, -⟩
    · exact heq.le
    · exact Multiset.add_le_add_left (Multiset.zero_le _)
  taken_next _ := rfl
  taken_result := by
    rintro (_ | _ | _ | result) r h
    case returned =>
      obtain rfl := Option.some.inj h
      rfl
    all_goals cases h
  held_next h := h.held_eq.1.le
  held_step h := h.held_eq.2

end JobThreads
