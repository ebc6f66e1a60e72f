import OddBuilder.Library.Interleaving
import OddBuilder.Threads.SchedPolicy

/-!
# JobThreadActor

Posts from any threads and the batches that a pool runs, with the mailbox open
and handlers that return. Operations on the inbox and on the flag are steps, and
so is the submission of a batch. `posted` and `handled` record the messages in
the order of their push and of their handling.
-/

namespace JobThreads

open Interleaving JobBoundedMPMCQueue

variable {Msg : Type}

structure JobThreadActor (Msg : Type) where
  inbox : JobBoundedMPMCQueue Msg
  isScheduled : Bool
  posted : List Msg
  handled : List Msg

def kActorBatchSize : Nat := 16

/-- Where a thread is in `post`, `schedule` or `processBatch`. -/
inductive ActorThread (Msg : Type) where
  | client
  | scheduling
  | submitting
  | queued
  | batch (count : Nat)
  | handling (count : Nat) (msg : Msg)
  | clearing
  | looking
  | retesting
  | resubmitting
  | returning
  deriving DecidableEq

inductive ActorStep (Msg : Type) : LocalStep (JobThreadActor Msg) (ActorThread Msg) where
  | push (a msg inbox) (h : a.inbox.push msg = some (true, inbox)) :
      ActorStep Msg a .client { a with inbox := inbox, posted := a.posted ++ [msg] }
        {.scheduling, .client}
  | pushClosed (a msg inbox) (h : a.inbox.push msg = some (false, inbox)) :
      ActorStep Msg a .client { a with inbox := inbox } {.client}
  | schedule (a) (h : a.isScheduled = false) :
      ActorStep Msg a .scheduling { a with isScheduled := true } {.submitting}
  | scheduled (a) (h : a.isScheduled = true) : ActorStep Msg a .scheduling a 0
  | submit (a) : ActorStep Msg a .submitting a {.queued}
  | start (a) : ActorStep Msg a .queued a {.batch 0}
  | pop (a count msg inbox) (hcount : count < kActorBatchSize)
      (h : a.inbox.tryPop = (some msg, inbox)) :
      ActorStep Msg a (.batch count) { a with inbox := inbox } {.handling count msg}
  | onMessage (a count msg) :
      ActorStep Msg a (.handling count msg) { a with handled := a.handled ++ [msg] }
        {.batch (count + 1)}
  | drained (a count inbox) (hcount : count < kActorBatchSize)
      (h : a.inbox.tryPop = (none, inbox)) : ActorStep Msg a (.batch count) a {.clearing}
  | clear (a) : ActorStep Msg a .clearing { a with isScheduled := false } {.looking}
  | empty (a) (h : a.inbox.isEmpty = true) : ActorStep Msg a .looking a {.returning}
  | nonEmpty (a) (h : a.inbox.isEmpty = false) : ActorStep Msg a .looking a {.retesting}
  | retake (a) (h : a.isScheduled = false) :
      ActorStep Msg a .retesting { a with isScheduled := true } {.batch 0}
  | retaken (a) (h : a.isScheduled = true) : ActorStep Msg a .retesting a {.returning}
  | full (a count) (hcount : ¬ count < kActorBatchSize) :
      ActorStep Msg a (.batch count) a {.resubmitting}
  | resubmit (a) : ActorStep Msg a .resubmitting a {.queued, .returning}
  | leave (a) : ActorStep Msg a .returning a 0

/-- A new actor and the threads that will post to it. -/
def actorStart (Msg : Type) (mailboxCap clients : Nat) :
    Config (JobThreadActor Msg) (ActorThread Msg) :=
  ⟨⟨.create mailboxCap, false, [], []⟩, Multiset.replicate clients .client⟩

namespace ActorThread

/-- A batch that is queued or that a worker executes. -/
def isBatch : ActorThread Msg → Bool
  | .client => false
  | .scheduling => false
  | .submitting => false
  | _ => true

/-- Set the flag and did not clear it or give it on. -/
def owns : ActorThread Msg → Bool
  | .submitting => true
  | .queued => true
  | .batch _ => true
  | .handling _ _ => true
  | .clearing => true
  | .resubmitting => true
  | _ => false

/-- Will test the flag, or look at the inbox and then test it. -/
def looks : ActorThread Msg → Bool
  | .scheduling => true
  | .looking => true
  | .retesting => true
  | _ => false

/-- The message a batch took out and did not handle. -/
def inHand : ActorThread Msg → Option Msg
  | .handling _ msg => some msg
  | _ => none

theorem inHand_of_not_owns {t : ActorThread Msg} (h : ¬ t.owns = true) : t.inHand = none := by
  cases t <;> simp [owns] at h <;> rfl

end ActorThread

open ActorThread

/-- Flag, inbox and threads. -/
structure Mailbox (a : JobThreadActor Msg) (threads : Multiset (ActorThread Msg)) : Prop where
  opened : a.inbox.closed = false
  owner : count owns threads = if a.isScheduled then 1 else 0
  order : ∃ hand : List Msg, threads.filterMap inHand = hand ∧
    a.posted = a.handled ++ (hand ++ a.inbox.deque)
  noticed : a.isScheduled = false → a.inbox.deque ≠ [] → 0 < count looks threads

theorem filterMap_inHand_eq_zero {threads : Multiset (ActorThread Msg)}
    (h : count owns threads = 0) : threads.filterMap inHand = 0 := by
  apply Multiset.eq_zero_of_forall_notMem
  intro msg hmsg
  obtain ⟨t, ht, hhand⟩ := (Multiset.mem_filterMap _ _).1 hmsg
  rw [inHand_of_not_owns (count_eq_zero.1 h t ht)] at hhand
  cases hhand

/-- The flag is set while a thread owns the actor, and no other thread does. -/
theorem Mailbox.sole_owner {a : JobThreadActor Msg} {t : ActorThread Msg}
    {others : Multiset (ActorThread Msg)} (h : Mailbox a (t ::ₘ others)) (ht : t.owns = true) :
    a.isScheduled = true ∧ count owns others = 0 := by
  have howner := h.owner
  rw [count_cons, if_pos ht] at howner
  cases hflag : a.isScheduled with
  | true =>
    rw [hflag] at howner
    exact ⟨rfl, Nat.succ.inj howner⟩
  | false =>
    rw [hflag] at howner
    exact absurd howner (Nat.succ_ne_zero _)

theorem Mailbox.step {a a' : JobThreadActor Msg} {t : ActorThread Msg}
    {born others : Multiset (ActorThread Msg)} (h : Mailbox a (t ::ₘ others))
    (hnext : ActorStep Msg a t a' born) : Mailbox a' (born + others) := by
  have hsole := h.sole_owner
  obtain ⟨hopened, howner, ⟨hand, hhand, horder⟩⟩ := h
  cases hnext with
  | push _ msg inbox hpush =>
    obtain ⟨-, rfl⟩ := push_of_open hopened hpush
    refine ⟨hopened, ?_, ⟨hand, ?_, ?_⟩, ?_⟩
    · simpa [owns] using howner
    · simpa [inHand, Multiset.filterMap_cons] using hhand
    · simp [horder]
    · intro _ _
      simp [looks]
  | pushClosed _ msg inbox hpush =>
    exact absurd (push_of_open hopened hpush).1 (by simp)
  | pop _ n msg inbox hcount hpop =>
    obtain ⟨hflag, hothers⟩ := hsole rfl
    obtain ⟨hdeque, hclosed, -⟩ := tryPop_some hpop
    have hnone := filterMap_inHand_eq_zero hothers
    have hempty : hand = [] := by
      simpa [inHand, Multiset.filterMap_cons, hnone, eq_comm] using hhand
    refine ⟨hclosed.trans hopened, ?_, ⟨[msg], ?_, ?_⟩, ?_⟩
    · simpa [owns] using howner
    · simp [inHand, hnone]
    · simp [horder, hempty, hdeque]
    · intro hunset
      simp [hflag] at hunset
  | onMessage _ n msg =>
    obtain ⟨hflag, hothers⟩ := hsole rfl
    have hnone := filterMap_inHand_eq_zero hothers
    have hempty : hand = [msg] := by
      simpa [inHand, hnone, eq_comm] using hhand
    refine ⟨hopened, ?_, ⟨[], ?_, ?_⟩, ?_⟩
    · simpa [owns] using howner
    · simp [inHand, Multiset.filterMap_cons, hnone]
    · simp [horder, hempty]
    · intro hunset
      simp [hflag] at hunset
  | empty _ hempty =>
    refine ⟨hopened, ?_, ⟨hand, ?_, horder⟩, ?_⟩
    · simpa [owns] using howner
    · simpa [inHand, Multiset.filterMap_cons] using hhand
    · intro _ hne
      exact absurd (List.isEmpty_iff.1 hempty) hne
  | schedule | scheduled | submit | start | drained | clear | nonEmpty | retake | retaken | full
  | resubmit | leave =>
    refine ⟨hopened, ?_, ⟨hand, ?_, horder⟩, ?_⟩
    · simp_all [owns]
    · simpa [inHand, Multiset.filterMap_cons] using hhand
    · simp_all [looks]

theorem mailbox_start (mailboxCap clients : Nat) :
    Mailbox (actorStart Msg mailboxCap clients).shared (actorStart Msg mailboxCap clients).threads := by
  refine ⟨rfl, ?_, ⟨[], ?_, rfl⟩, ?_⟩
  · rw [count_eq_zero.2]
    · rfl
    · intro t ht
      rw [Multiset.eq_of_mem_replicate ht]
      exact Bool.false_ne_true
  · apply Multiset.eq_zero_of_forall_notMem
    intro msg hmsg
    obtain ⟨t, ht, hhand⟩ := (Multiset.mem_filterMap _ _).1 hmsg
    rw [Multiset.eq_of_mem_replicate ht] at hhand
    cases hhand
  · intro _ hne
    exact absurd rfl hne

theorem mailbox_of_reachable {mailboxCap clients : Nat}
    {c : Config (JobThreadActor Msg) (ActorThread Msg)}
    (h : Reachable (ActorStep Msg) (actorStart Msg mailboxCap clients) c) :
    Mailbox c.shared c.threads :=
  h.invariant (mailbox_start mailboxCap clients) fun _ _ _ _ _ => Mailbox.step

/-- A message in the inbox will be noticed. -/
theorem Mailbox.later {a : JobThreadActor Msg} {threads : Multiset (ActorThread Msg)}
    (h : Mailbox a threads) (hne : a.inbox.deque ≠ []) :
    ∃ t ∈ threads, t.isBatch = true ∨ t = .scheduling ∨ t = .submitting := by
  have howner := h.owner
  by_cases hflag : a.isScheduled = true
  · rw [if_pos hflag] at howner
    obtain ⟨t, ht, howns⟩ := count_pos.1 (howner ▸ Nat.one_pos)
    refine ⟨t, ht, ?_⟩
    cases t <;> simp [owns, isBatch] at howns ⊢
  · obtain ⟨t, ht, hlooks⟩ := count_pos.1 (h.noticed (Bool.not_eq_true _ ▸ hflag) hne)
    refine ⟨t, ht, ?_⟩
    cases t <;> simp [looks, isBatch] at hlooks ⊢

/-- When only the posting threads are left, all is handled. -/
theorem Mailbox.all_handled {a : JobThreadActor Msg} {threads : Multiset (ActorThread Msg)}
    (h : Mailbox a threads) (hclients : ∀ t ∈ threads, t = .client) : a.handled = a.posted := by
  have hempty : a.inbox.deque = [] := by
    by_contra hne
    obtain ⟨t, ht, hkind⟩ := h.later hne
    rw [hclients t ht] at hkind
    simp [isBatch] at hkind
  obtain ⟨hand, hhand, horder⟩ := h.order
  have hnone : threads.filterMap inHand = 0 := by
    apply filterMap_inHand_eq_zero
    rw [count_eq_zero]
    intro t ht
    rw [hclients t ht]
    exact Bool.false_ne_true
  have hhand' : hand = [] := by
    rw [hnone] at hhand
    exact (Multiset.coe_eq_zero hand).1 hhand.symm
  rw [horder, hhand', hempty, List.append_nil, List.append_nil]

/-- In every reachable state one thread at most owns the actor, the messages were handled
in the order of their push, and a message in the inbox will be noticed. -/
theorem actor_handles_in_order {mailboxCap clients : Nat}
    {c : Config (JobThreadActor Msg) (ActorThread Msg)}
    (h : Reachable (ActorStep Msg) (actorStart Msg mailboxCap clients) c) :
    count owns c.threads ≤ 1 ∧ c.shared.handled <+: c.shared.posted ∧
      ((∀ t ∈ c.threads, t = .client) → c.shared.handled = c.shared.posted) ∧
      (c.shared.inbox.deque ≠ [] → ∃ t ∈ c.threads,
        t.isBatch = true ∨ t = .scheduling ∨ t = .submitting) := by
  have hmailbox := mailbox_of_reachable h
  obtain ⟨hand, -, horder⟩ := hmailbox.order
  refine ⟨?_, ⟨_, horder.symm⟩, hmailbox.all_handled, hmailbox.later⟩
  rw [hmailbox.owner]
  split <;> omega

/-- A post that has set the flag. -/
theorem reachable_submitting : Reachable (ActorStep Nat) (actorStart Nat 1024 1)
    ⟨⟨⟨1024, [7], false⟩, true, [7], []⟩, {.submitting, .client}⟩ := by
  have hfirst : Reachable (ActorStep Nat) (actorStart Nat 1024 1)
      ⟨⟨.create 1024, false, [], []⟩, {.client}⟩ := Reachable.refl _
  have hpush := hfirst.turn 0 rfl (ActorStep.push _ 7 _ rfl)
  exact hpush.turn {.client} rfl (ActorStep.schedule _ rfl)

/-- A batch that has handled its message and cleared the flag. -/
theorem reachable_looking : Reachable (ActorStep Nat) (actorStart Nat 1024 1)
    ⟨⟨⟨1024, [], false⟩, false, [7], [7]⟩, {.looking, .client}⟩ := by
  have hsubmit := reachable_submitting.turn {.client} rfl (ActorStep.submit _)
  have hstart := hsubmit.turn {.client} rfl (ActorStep.start _)
  have hpop := hstart.turn {.client} rfl (ActorStep.pop _ 0 7 _ (by decide) rfl)
  have hhandled := hpop.turn {.client} rfl (ActorStep.onMessage _ 0 7)
  have hdrained := hhandled.turn {.client} rfl (ActorStep.drained _ 1 _ (by decide) rfl)
  exact hdrained.turn {.client} rfl (ActorStep.clear _)

/-- A batch that cleared the flag is still active when a post queues the next one; and a post
that set the flag has not queued its batch yet. -/
theorem actor_batches_overlap :
    (∃ c, Reachable (ActorStep Nat) (actorStart Nat 1024 1) c ∧ 1 < count isBatch c.threads) ∧
      ∃ c, Reachable (ActorStep Nat) (actorStart Nat 1024 1) c ∧ c.shared.inbox.deque ≠ [] ∧
        ∀ t ∈ c.threads, t.isBatch = false ∧ t ≠ .scheduling := by
  have hswap : ({.looking, .client} : Multiset (ActorThread Nat)) = .client ::ₘ {.looking} := by
    decide
  have hpush := reachable_looking.turn {.looking} hswap (ActorStep.push _ 8 _ rfl)
  have hset := hpush.turn {.client, .looking} rfl (ActorStep.schedule _ rfl)
  have hsubmit := hset.turn {.client, .looking} rfl (ActorStep.submit _)
  exact ⟨⟨_, hsubmit, by decide⟩, _, reachable_submitting, by decide, by decide⟩

/-- One message handled, and the batch through. -/
theorem actor_one_message : ∃ c, Reachable (ActorStep Nat) (actorStart Nat 1024 1) c ∧
    c.shared.posted = [7] ∧ count owns c.threads ≤ 1 ∧ c.shared.handled <+: c.shared.posted ∧
      ((∀ t ∈ c.threads, t = .client) → c.shared.handled = c.shared.posted) ∧
      (c.shared.inbox.deque ≠ [] → ∃ t ∈ c.threads,
        t.isBatch = true ∨ t = .scheduling ∨ t = .submitting) := by
  have hempty := reachable_looking.turn {.client} rfl (ActorStep.empty _ rfl)
  have hleave := hempty.turn {.client} rfl (ActorStep.leave _)
  exact ⟨_, hleave, rfl, actor_handles_in_order hleave⟩

end JobThreads

/-!
## An actor whose handler throws

The exception leaves the batch, which then neither clears the flag nor submits
another one; the pool keeps it in the future of the batch. `handled` has every
message that was given to the handler, `failed` the positions of those it threw
for.
-/

namespace JobThreads

open Interleaving

variable {Msg : Type}

structure FailingActor (Msg : Type) where
  actor : JobThreadActor Msg
  failed : List Nat

inductive ActorFailStep (Msg : Type) : LocalStep (FailingActor Msg) (ActorThread Msg) where
  | proceed (s t actor born) (h : ActorStep Msg s.actor t actor born) :
      ActorFailStep Msg s t { s with actor := actor } born
  | throw (s count msg) :
      ActorFailStep Msg s (.handling count msg)
        { actor := { s.actor with handled := s.actor.handled ++ [msg] },
          failed := s.failed ++ [s.actor.handled.length] } 0

def failingStart (Msg : Type) (mailboxCap clients : Nat) :
    Config (FailingActor Msg) (ActorThread Msg) :=
  ⟨⟨(actorStart Msg mailboxCap clients).shared, []⟩, (actorStart Msg mailboxCap clients).threads⟩

open ActorThread

/-- The handler has thrown: the flag is set, and nobody owns the actor. -/
structure Abandoned (s : FailingActor Msg) (threads : Multiset (ActorThread Msg)) : Prop where
  opened : s.actor.inbox.closed = false
  flag : s.actor.isScheduled = true
  nobody : count owns threads = 0
  order : s.actor.posted = s.actor.handled ++ s.actor.inbox.deque
  last : s.failed = [s.actor.handled.length - 1] ∧ s.actor.handled ≠ []

variable {s s' : FailingActor Msg} {t : ActorThread Msg} {born others : Multiset (ActorThread Msg)}

/-- What is pushed then stays in the inbox. -/
theorem Abandoned.step (h : Abandoned s (t ::ₘ others)) (hnext : ActorFailStep Msg s t s' born) :
    Abandoned s' (born + others) := by
  obtain ⟨hopened, hflag, hnobody, horder, hlast⟩ := h
  cases hnext with
  | proceed _ _ actor born hstep =>
    cases hstep with
    | push _ msg inbox hpush =>
      obtain ⟨-, rfl⟩ := JobBoundedMPMCQueue.push_of_open hopened hpush
      exact ⟨hopened, hflag, by simpa [owns] using hnobody, by simp [horder], hlast⟩
    | pushClosed _ msg inbox hpush =>
      exact absurd (JobBoundedMPMCQueue.push_of_open hopened hpush).1 (by simp)
    | schedule _ hunset =>
      rw [hflag] at hunset
      cases hunset
    | retake _ hunset =>
      rw [hflag] at hunset
      cases hunset
    | scheduled | empty | nonEmpty | retaken | leave =>
      exact ⟨hopened, hflag, by simp_all [owns], horder, hlast⟩
    | _ => simp [owns] at hnobody
  | throw _ count msg => simp [owns] at hnobody

/-- The first exception. -/
theorem Mailbox.abandoned {actor : JobThreadActor Msg} {count : Nat} {msg : Msg}
    (h : Mailbox actor (.handling count msg ::ₘ others)) :
    Abandoned ⟨{ actor with handled := actor.handled ++ [msg] }, [actor.handled.length]⟩ others := by
  obtain ⟨hflag, hothers⟩ := h.sole_owner rfl
  obtain ⟨hand, hhand, horder⟩ := h.order
  have hnone := filterMap_inHand_eq_zero hothers
  have hself : hand = [msg] := by
    simpa [inHand, hnone, eq_comm] using hhand
  refine ⟨h.opened, hflag, hothers, ?_, ?_, ?_⟩
  · simp [horder, hself]
  · simp
  · simp

/-- The actor works as long as no handler has thrown, and is abandoned from then on. -/
def Working (s : FailingActor Msg) (threads : Multiset (ActorThread Msg)) : Prop :=
  (s.failed = [] ∧ Mailbox s.actor threads) ∨ Abandoned s threads

theorem Working.step (h : Working s (t ::ₘ others)) (hnext : ActorFailStep Msg s t s' born) :
    Working s' (born + others) := by
  rcases h with ⟨hnone, hmailbox⟩ | habandoned
  · cases hnext with
    | proceed _ _ actor born hstep => exact Or.inl ⟨hnone, hmailbox.step hstep⟩
    | throw _ count msg =>
      right
      rw [hnone, zero_add]
      exact hmailbox.abandoned
  · exact Or.inr (habandoned.step hnext)

theorem working_of_reachable {mailboxCap clients : Nat}
    {c : Config (FailingActor Msg) (ActorThread Msg)}
    (h : Reachable (ActorFailStep Msg) (failingStart Msg mailboxCap clients) c) :
    Working c.shared c.threads :=
  h.invariant (Or.inl ⟨rfl, mailbox_start mailboxCap clients⟩) fun _ _ _ _ _ => Working.step

/-- The handler gets the messages in the order of their push. Once only the posting threads are
left, it has got every one exactly if none was posted behind one that it threw for. -/
theorem actor_survives_iff {mailboxCap clients : Nat}
    {c : Config (FailingActor Msg) (ActorThread Msg)}
    (h : Reachable (ActorFailStep Msg) (failingStart Msg mailboxCap clients) c) :
    c.shared.actor.handled <+: c.shared.actor.posted ∧
      ((∀ t ∈ c.threads, t = .client) →
        (c.shared.actor.handled = c.shared.actor.posted ↔
          ∀ i ∈ c.shared.failed, i + 1 = c.shared.actor.posted.length)) := by
  rcases working_of_reachable h with ⟨hnone, hmailbox⟩ | ⟨-, -, -, horder, hfailed, hne⟩
  · obtain ⟨hand, -, horder⟩ := hmailbox.order
    refine ⟨⟨_, horder.symm⟩, fun hquiet => ?_⟩
    rw [hnone]
    exact iff_of_true (hmailbox.all_handled hquiet) fun i hi => absurd hi List.not_mem_nil
  · refine ⟨⟨_, horder.symm⟩, fun _ => ?_⟩
    have hpos := List.length_pos_iff.2 hne
    rw [hfailed, List.forall_mem_singleton, horder, List.length_append, List.self_eq_append_right,
      ← List.length_eq_zero_iff]
    omega

/-- The handler throws for the only message. -/
theorem thrown_first : Reachable (ActorFailStep Nat) (failingStart Nat 1024 1)
    ⟨⟨⟨⟨1024, [], false⟩, true, [7], [7]⟩, [0]⟩, {.client}⟩ := by
  have hfirst : Reachable (ActorFailStep Nat) (failingStart Nat 1024 1)
      ⟨⟨⟨.create 1024, false, [], []⟩, []⟩, {.client}⟩ := Reachable.refl _
  have hpush := hfirst.turn 0 rfl (.proceed _ _ _ _ (.push _ 7 _ rfl))
  have hset := hpush.turn {.client} rfl (.proceed _ _ _ _ (.schedule _ rfl))
  have hsubmit := hset.turn {.client} rfl (.proceed _ _ _ _ (.submit _))
  have hstart := hsubmit.turn {.client} rfl (.proceed _ _ _ _ (.start _))
  have hpop := hstart.turn {.client} rfl (.proceed _ _ _ _ (.pop _ 0 7 _ (by decide) rfl))
  exact hpop.turn {.client} rfl (.throw _ 0 7)

theorem survives_last : ∃ c, Reachable (ActorFailStep Nat) (failingStart Nat 1024 1) c ∧
    c.shared.failed = [0] ∧ c.shared.actor.handled <+: c.shared.actor.posted ∧
      ((∀ t ∈ c.threads, t = .client) → (c.shared.actor.handled = c.shared.actor.posted ↔
          ∀ i ∈ c.shared.failed, i + 1 = c.shared.actor.posted.length)) :=
  ⟨_, thrown_first, rfl, actor_survives_iff thrown_first⟩

/-- The next message finds the flag set, and nobody handles it. -/
theorem next_message_lost : ∃ c, Reachable (ActorFailStep Nat) (failingStart Nat 1024 1) c ∧
    c.threads = {.client} ∧ c.shared.failed = [0] ∧ c.shared.actor.posted = [7, 8] ∧
      c.shared.actor.handled = [7] := by
  have hpush := thrown_first.turn 0 rfl (.proceed _ _ _ _ (.push _ 8 _ rfl))
  have hleft := hpush.turn {.client} rfl (.proceed _ _ _ _ (.scheduled _ rfl))
  exact ⟨_, hleft, rfl, rfl, rfl, rfl⟩

end JobThreads
