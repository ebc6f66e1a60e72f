import OddBuilder.Threads.Signal

/-!
# Callbacks of single-shot connections

The counter is never below the number of single-shot connections that are
published, also while the lock is held. A call of `emit` that finds it zero
after loading a snapshot with one of them must therefore have been overtaken by
a disconnection, and goes on to call what others have claimed.
-/

namespace JobSignal

open Interleaving Multiset

variable {s s' : SignalState} {t : SignalThread} {born others threads : Multiset SignalThread}

def singleShots (connections : List SignalEntry) : Nat :=
  connections.countP fun entry => entry.state.isSingleShot

@[simp] theorem singleShots_nil : singleShots [] = 0 := List.countP_nil

@[simp] theorem singleShots_concat (connections : List SignalEntry) (entry : SignalEntry) :
    singleShots (connections ++ [entry]) =
      singleShots connections + if entry.state.isSingleShot then 1 else 0 := by
  simp [singleShots]

theorem singleShots_eq_zero {connections : List SignalEntry} :
    singleShots connections = 0 ↔ ∀ entry ∈ connections, ¬ entry.state.isSingleShot = true :=
  List.countP_eq_zero

/-- With the entry that was found, what goes is at least as much as is counted down. -/
theorem singleShots_without {id : BitVec 64} {entry : SignalEntry} (h : s.find id = some entry) :
    singleShots (s.without id) + (if entry.state.isSingleShot then 1 else 0) ≤
      singleShots s.connections := by
  have hmem : entry ∈ s.connections := List.mem_of_find?_eq_some h
  have hid : (entry.state.id == id) = true :=
    List.find?_some (p := fun e : SignalEntry => e.state.id == id) h
  have hsplit : singleShots s.connections =
      singleShots (s.connections.filter fun e => e.state.id == id) + singleShots (s.without id) :=
    List.countP_eq_countP_filter_add _ _ _
  by_cases hsingle : entry.state.isSingleShot = true
  · have hfound : 0 < singleShots (s.connections.filter fun e => e.state.id == id) :=
      List.countP_pos_iff.2 ⟨entry, List.mem_filter.2 ⟨hmem, hid⟩, hsingle⟩
    rw [if_pos hsingle]
    omega
  · rw [if_neg hsingle]
    omega

namespace SignalThread

def holds : SignalThread → Bool
  | .inside _ _ => true
  | _ => false

/-- Has counted a single-shot connection that is not yet published, or still counts it though it
is no longer. -/
def owes : SignalThread → Bool
  | .inside (.publish entry) _ => entry.state.isSingleShot
  | .inside (.lowerCount singleShot) _ => singleShot
  | .inside .lowerSingleShots _ => true
  | _ => false

/-- Has cleared the connections and not yet the counters. -/
def clearing : SignalThread → Bool
  | .inside .zeroCount _ => true
  | .inside .zeroSingleShots _ => true
  | _ => false

theorem holds_of_owes (h : t.owes = true) : t.holds = true := by
  cases t with
  | inside => rfl
  | _ => cases h

theorem holds_of_clearing (h : t.clearing = true) : t.holds = true := by
  cases t with
  | inside => rfl
  | _ => cases h

end SignalThread

open SignalThread

structure Counted (s : SignalState) (threads : Multiset SignalThread) : Prop where
  lock : count holds threads = s.writeMutex.toNat
  covers : singleShots s.connections + count owes threads ≤ s.singleShotCount
  cleared : ∀ t ∈ threads, t.clearing = true → s.connections = []

/-- Only the lock itself changes who holds it. -/
theorem SignalStep.holds_born (h : SignalStep s t s' born)
    (hheld : t.holds = true → s.writeMutex = true) :
    count holds born + s.writeMutex.toNat =
      (if t.holds then 1 else 0) + s'.writeMutex.toNat := by
  cases h with
  | lock _ _ _ hfree => simp [holds, hfree]
  | unlock | unlockClaimed => simp [holds, hheld rfl]
  | _ => simp [holds]

/-- Who publishes holds the lock. -/
theorem SignalStep.connections_cases (h : SignalStep s t s' born) :
    t.holds = true ∨ (s'.connections = s.connections ∧ ∀ u ∈ born, u.clearing = false) := by
  cases h with
  | _ => first | exact .inl rfl | exact .inr ⟨rfl, by simp [clearing]⟩

/-- What clears has cleared. -/
theorem SignalStep.clearing_born (h : SignalStep s t s' born)
    (ht : t.clearing = true → s.connections = []) :
    ∀ u ∈ born, u.clearing = true → s'.connections = [] := by
  cases h with
  | zeroCount | zeroSingleShots =>
    intro u _ _
    exact ht rfl
  | _ => simp [clearing]

/-- But for the counter set to zero, a step leaves what covers the connections covering them. -/
theorem SignalStep.counter_cases (h : SignalStep s t s' born) :
    (t.clearing = true ∧ s'.connections = s.connections ∧ count owes born = 0) ∨
      singleShots s'.connections + count owes born + s.singleShotCount ≤
        singleShots s.connections + (if t.owes then 1 else 0) + s'.singleShotCount := by
  cases h with
  | zeroCount | zeroSingleShots =>
    left
    exact ⟨rfl, rfl, by simp [owes]⟩
  | accept _ call =>
    right
    cases hflags : hasConnectionFlag call.flags ConnectionFlag.singleShot <;>
      simp [owes, SignalState.allocate, SignalState.newEntry, ConnectionState.isSingleShot, hflags]
    omega
  | publish _ entry =>
    right
    cases hsingle : entry.state.isSingleShot <;> simp [owes, hsingle]
  | remove _ id claimed entry hfind =>
    right
    have hwithout := singleShots_without hfind
    cases hsingle : entry.state.isSingleShot <;> simp [owes, hsingle] at hwithout ⊢ <;> omega
  | lowerSingleShots =>
    right
    simp only [owes, count_singleton]
    simp
    omega
  | _ =>
    right
    simp [owes]

theorem Counted.held (h : Counted s (t ::ₘ others)) (ht : t.holds = true) :
    s.writeMutex = true ∧ count holds others = 0 := by
  have hlock := h.lock
  rw [count_cons, if_pos ht] at hlock
  cases hmutex : s.writeMutex <;> simp [hmutex] at hlock ⊢
  exact hlock

theorem Counted.step (h : Counted s (t ::ₘ others)) (hnext : SignalStep s t s' born) :
    Counted s' (born + others) := by
  have hcovers := h.covers
  rw [count_cons] at hcovers
  constructor
  · have hborn := hnext.holds_born fun ht => (h.held ht).1
    have hlock := h.lock
    rw [count_cons] at hlock
    rw [count_add]
    omega
  · rw [count_add]
    rcases hnext.counter_cases with ⟨hclearing, hsame, hborn⟩
    · have hnone := (h.held (holds_of_clearing hclearing)).2
      have howes : count owes others ≤ count holds others :=
        count_le_count (fun _ => holds_of_owes) others
      have hempty := h.cleared t (mem_cons_self _ _) hclearing
      rw [hsame, hempty, singleShots_nil]
      omega
    · omega
  · intro u hu hclearing
    rcases mem_add.1 hu with hu | hu
    · exact hnext.clearing_born (h.cleared t (mem_cons_self _ _)) u hu hclearing
    · rcases hnext.connections_cases with ht | ⟨hsame, -⟩
      · have hnone := count_eq_zero.1 (h.held ht).2 u hu
        exact absurd (holds_of_clearing hclearing) hnone
      · rw [hsame]
        exact h.cleared u (mem_cons_of_mem hu) hclearing

theorem counted_start : Counted signalStart.shared signalStart.threads := by
  constructor
  · rfl
  · exact Nat.le_refl 0
  · intro t ht hclearing
    rfl

/-- Of the snapshot of an emit that is about to take the fast path, no single-shot connection has
been disconnected since it was loaded. -/
def NoneGone (s : SignalState) (t : SignalThread) (_ : Multiset SignalThread) : Prop :=
  ∀ connections, t = .deciding connections → s.singleShotCount = 0 →
    ∀ entry ∈ connections, entry.state.isSingleShot = true → entry ∈ s.connections

theorem Counted.none_left (h : Counted s threads) (hzero : s.singleShotCount = 0) :
    ∀ entry ∈ s.connections, ¬ entry.state.isSingleShot = true := by
  have hcovers := h.covers
  exact singleShots_eq_zero.1 (by omega)

namespace SignalThread

/-- The fast path has only ordinary connections left. -/
def plain : SignalThread → Prop
  | .calling connections => ∀ entry ∈ connections, entry.state.isSingleShot = false
  | _ => True

/-- What an emit has claimed and not yet called. -/
def claimed? : SignalThread → Option SignalEntry
  | .waiting _ claimed => claimed.map Prod.fst
  | .inside _ claimed => claimed.map Prod.fst
  | .firing entry _ => some entry
  | _ => none

def claims (state : ConnectionState) (t : SignalThread) : Bool :=
  t.claimed?.any (·.state == state)

end SignalThread

/-- A callback is started or about to be when the connection is claimed, and once. -/
structure OnceEach (state : ConnectionState) (s : SignalState) (threads : Multiset SignalThread) :
    Prop where
  once : s.started.count state + count (claims state) threads ≤
    if s.singleShotClaimed state.object then 1 else 0
  plain : ∀ t ∈ threads, t.plain

theorem SignalStep.plain_born (h : SignalStep s t s' born) (hcounted : Counted s (t ::ₘ others))
    (hguard : NoneGone s t others) (ht : t.plain) : ∀ u ∈ born, u.plain := by
  cases h with
  | noneSingleShot _ connections hzero =>
    intro u hu
    rw [mem_singleton.1 hu]
    intro entry hentry
    by_contra hsingle
    have hsingle := Bool.not_eq_false _ |>.mp hsingle
    have hlive := hguard connections rfl hzero entry hentry hsingle
    exact hcounted.none_left hzero entry hlive hsingle
  | call _ entry rest | callNothing _ entry rest =>
    intro u hu
    rw [mem_singleton.1 hu]
    intro e he
    exact ht e (List.mem_cons_of_mem _ he)
  | _ => simp [SignalThread.plain]

theorem ne_of_ordinary {ordinary state : ConnectionState} (h : ordinary.isSingleShot = false)
    (hsingle : state.isSingleShot = true) : ordinary ≠ state := by
  rintro rfl
  rw [h] at hsingle
  cases hsingle

/-- A step starts the callback of a connection that the thread has claimed, or claims it while
nobody has. -/
theorem SignalStep.once_cases {state : ConnectionState} (hsingle : state.isSingleShot = true)
    (h : SignalStep s t s' born) (ht : t.plain) :
    (s.singleShotClaimed state.object = false ∧ s'.singleShotClaimed state.object = true ∧
      s'.started = s.started ∧ count (claims state) born ≤ 1) ∨
      (s'.singleShotClaimed state.object = s.singleShotClaimed state.object ∧
        s'.started.count state + count (claims state) born ≤
          s.started.count state + if t.claims state then 1 else 0) := by
  cases h with
  | claim _ entry rest hflags hfree =>
    by_cases hobject : entry.state.object = state.object
    · left
      rw [hobject] at hfree
      refine ⟨hfree, by simp [SignalState.claim, hobject], rfl, ?_⟩
      rw [count_singleton]
      split <;> omega
    · right
      have hother : entry.state ≠ state := fun heq => hobject (congrArg _ heq)
      refine ⟨Function.update_of_ne (Ne.symm hobject) _ _, ?_⟩
      simp [claims, claimed?, hother]
  | call _ entry rest =>
    right
    have hother : entry.state ≠ state :=
      ne_of_ordinary (ht entry List.mem_cons_self) hsingle
    refine ⟨rfl, ?_⟩
    simp [claims, claimed?, hother]
  | ordinary _ entry rest hflags =>
    right
    have hother : entry.state ≠ state := ne_of_ordinary hflags hsingle
    refine ⟨rfl, ?_⟩
    simp [claims, claimed?, hother]
  | fire _ entry rest =>
    right
    refine ⟨rfl, ?_⟩
    by_cases heq : entry.state = state <;> simp [claims, claimed?, heq]
  | _ =>
    right
    refine ⟨rfl, ?_⟩
    simp [claims, claimed?] <;> exact le_rfl

theorem OnceEach.step {state : ConnectionState} (hsingle : state.isSingleShot = true)
    (h : OnceEach state s (t ::ₘ others)) (hcounted : Counted s (t ::ₘ others))
    (hguard : NoneGone s t others) (hnext : SignalStep s t s' born) :
    OnceEach state s' (born + others) := by
  obtain ⟨honce, hplain⟩ := h
  have ht : t.plain := hplain t (mem_cons_self _ _)
  constructor
  · rw [count_cons] at honce
    rw [count_add]
    rcases hnext.once_cases hsingle ht with ⟨hfree, hclaimed, hsame, hborn⟩ | ⟨hsame, hborn⟩
    · simp only [hfree, Bool.false_eq_true, if_false] at honce
      rw [if_pos hclaimed, hsame]
      omega
    · rw [hsame]
      omega
  · intro u hu
    rcases mem_add.1 hu with hu | hu
    · exact hnext.plain_born hcounted hguard ht u hu
    · exact hplain u (mem_cons_of_mem hu)

theorem onceEach_start (state : ConnectionState) :
    OnceEach state signalStart.shared signalStart.threads := by
  constructor
  · exact Nat.le_refl 0
  · intro t ht
    rw [mem_singleton.1 ht]
    trivial

/-- When no single-shot connection is disconnected between the loads of an emit that then takes
the fast path, the callback of each is started at most once. -/
theorem single_shot_once {c : Config SignalState SignalThread}
    (h : ReachableWhere NoneGone SignalStep signalStart c) {state : ConnectionState}
    (hsingle : state.isSingleShot = true) : c.shared.started.count state ≤ 1 := by
  let Both : SignalState → Multiset SignalThread → Prop :=
    fun s threads => Counted s threads ∧ OnceEach state s threads
  have hboth : Both c.shared c.threads := by
    refine h.invariant ⟨counted_start, onceEach_start state⟩ ?_
    rintro s t s' born others ⟨hcounted, honce⟩ hguard hnext
    exact ⟨hcounted.step hnext, honce.step hsingle hcounted hguard hnext⟩
  have honce := hboth.2.once
  split at honce <;> omega

/-- Only the choice of the path is restricted. -/
theorem turn_elsewhere {start : Config SignalState SignalThread}
    (h : ReachableWhere NoneGone SignalStep start ⟨s, threads⟩) (others : Multiset SignalThread)
    (hthreads : threads = t ::ₘ others) (hnext : SignalStep s t s' born)
    (ht : ∀ connections, t ≠ .deciding connections) :
    ReachableWhere NoneGone SignalStep start ⟨s', born + others⟩ :=
  h.turn others hthreads (fun connections heq => absurd heq (ht connections)) hnext

def onceCall : ConnectCall := ⟨true, ConnectionFlag.singleShot, none, none⟩

def onceEntry : SignalEntry := SignalState.create.newEntry onceCall

/-- One emit has loaded the connection, another has called it. -/
theorem called_once : ∃ c, ReachableWhere NoneGone SignalStep signalStart c ∧
    c.threads = {.deciding [onceEntry], .claiming [], .caller} ∧ c.shared.singleShotCount = 0 ∧
      c.shared.started = [onceEntry.state] := by
  have hstart : ReachableWhere NoneGone SignalStep signalStart ⟨.create, {.caller}⟩ :=
    Relation.ReflTransGen.refl
  have hconnect := turn_elsewhere hstart 0 rfl (SignalStep.connect _ onceCall) nofun
  have hlock := turn_elsewhere hconnect {.caller} rfl (SignalStep.lock _ _ _ rfl) nofun
  have haccept := turn_elsewhere hlock {.caller} rfl (SignalStep.accept _ _ _ rfl) nofun
  have hpublish := turn_elsewhere haccept {.caller} rfl (SignalStep.publish _ _ _) nofun
  have hraise := turn_elsewhere hpublish {.caller} rfl (SignalStep.raiseCount _ _) nofun
  have hunlock := turn_elsewhere hraise {.caller} rfl (SignalStep.unlock _) nofun
  -- the first emit loads its snapshot
  have hfirst := turn_elsewhere hunlock 0 rfl (SignalStep.emit _) nofun
  have hcount := turn_elsewhere hfirst {.caller} rfl
    (SignalStep.connections _ (by decide)) nofun
  have hblock := turn_elsewhere hcount {.caller} rfl (SignalStep.unblocked _ rfl) nofun
  have hload := turn_elsewhere hblock {.caller} rfl (SignalStep.load _) nofun
  -- the second claims the connection, disconnects it and calls it
  let first : SignalThread := .deciding [onceEntry]
  have hsecond := turn_elsewhere hload {first} (by decide) (SignalStep.emit _) nofun
  have hcount := turn_elsewhere hsecond {.caller, first} rfl
    (SignalStep.connections _ (by decide)) nofun
  have hblock := turn_elsewhere hcount {.caller, first} rfl (SignalStep.unblocked _ rfl) nofun
  have hload := turn_elsewhere hblock {.caller, first} rfl (SignalStep.load _) nofun
  have hslow := hload.turn {.caller, first} rfl
    (fun connections heq hzero => absurd hzero (by decide))
    (SignalStep.someSingleShot _ _ (by decide))
  have hclaim := turn_elsewhere hslow {.caller, first} rfl
    (SignalStep.claim _ _ _ (by decide) rfl) nofun
  have hlock := turn_elsewhere hclaim {.caller, first} rfl (SignalStep.lock _ _ _ rfl) nofun
  have hremove := turn_elsewhere hlock {.caller, first} rfl (SignalStep.remove _ _ _ _ rfl) nofun
  have hlower := turn_elsewhere hremove {.caller, first} rfl (SignalStep.lowerBoth _ _) nofun
  have hlower := turn_elsewhere hlower {.caller, first} rfl (SignalStep.lowerSingleShots _ _) nofun
  have hunlock := turn_elsewhere hlower {.caller, first} rfl (SignalStep.unlockClaimed _ _ _) nofun
  have hfire := turn_elsewhere hunlock {.caller, first} rfl (SignalStep.fire _ _ _ rfl) nofun
  exact ⟨_, hfire, by decide, rfl, rfl⟩

theorem single_shot_once_called : ∃ c, ReachableWhere NoneGone SignalStep signalStart c ∧
    onceEntry.state.isSingleShot = true ∧ onceEntry.state ∈ c.shared.started ∧
      c.shared.started.count onceEntry.state ≤ 1 := by
  obtain ⟨c, hreachable, -, -, hstarted⟩ := called_once
  refine ⟨c, hreachable, by decide, ?_, single_shot_once hreachable (by decide)⟩
  rw [hstarted]
  exact List.mem_cons_self

/-- The first emit now finds no single-shot connection counted and calls its snapshot. -/
theorem single_shot_twice : ∃ c, Reachable SignalStep signalStart c ∧
    ∃ state, state.isSingleShot = true ∧ c.shared.started.count state = 2 := by
  obtain ⟨⟨s, threads⟩, hreachable, hthreads, hzero, hstarted⟩ := called_once
  simp only at hthreads hzero hstarted
  have hfast := hreachable.reachable.turn {.claiming [], .caller} hthreads
    (SignalStep.noneSingleShot _ _ hzero)
  have hcall := hfast.turn {.claiming [], .caller} rfl (SignalStep.call _ _ _ rfl)
  refine ⟨_, hcall, onceEntry.state, by decide, ?_⟩
  simp [hstarted]

end JobSignal
