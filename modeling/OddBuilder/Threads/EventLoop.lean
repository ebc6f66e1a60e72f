import Mathlib.Data.List.Basic

/-!
# AsyncEventLoop

The thread of the loop runs `loop`, or a caller drives it with `runOnce`; both
call tasks, which may call the loop again. Each call under a lock is a step. The
readings of the clock are any. A wait for a task ends with one, or without one
while there is none.
-/

namespace JobThreads

namespace AsyncEventLoop

/-- What a `std::function` does: wake the loop, something of the caller's, or the callback of the
timer that was added as the `timer`-th. -/
inductive Task where
  | wake
  | posted
  | callback (timer : Nat)
  deriving DecidableEq

/-- A function may be empty. -/
structure TaskItem where
  priority : Int
  task : Option Task
  deriving DecidableEq

structure JobTimer where
  id : Nat
  next : Int
  interval : Int
  repeats : Bool
  isActive : Bool
  callback : Option Task
  /-- How many timers were added before. -/
  timer : Nat
  deriving DecidableEq

def JobTimer.expired (t : JobTimer) (now : Int) : Bool := t.isActive && decide (t.next ≤ now)

/-- Where the thread is in `loop` or `runOnce`, and which task it has called. -/
inductive Frame where
  | loop
  | processTimers (inLoop : Bool)
  | processTasks (inLoop : Bool) (i : Nat)
  | calling (task : Task)
  deriving DecidableEq

structure EventLoop where
  timers : List JobTimer
  queue : List TaskItem
  nextTimerId : Nat
  added : Nat
  stack : List Frame
  deriving DecidableEq

inductive Action where
  | addTimer (onLoop callable : Bool) (now interval : Int) (repeats : Bool)
  | post (onLoop callable : Bool) (priority : Int)
  | cancelTimer (onLoop : Bool) (id : Nat)
  | runOnce
  | processTimers (now : Int)
  | take (i : Nat)
  | takeNone
  | done
  | taskReturns

def Action.postDelayed (onLoop callable : Bool) (now delay : Int) : Action :=
  .addTimer onLoop callable now delay false

/-- `erased` are the timers that a `cancelTimer` took away, by their numbers. -/
inductive Event where
  | cancelled (onLoop : Bool) (id : Nat) (ret : Bool) (erased : List Nat)
  | started (timer : Nat)
  deriving DecidableEq

namespace EventLoop

/-- A loop that is started, or one that waits for `runOnce`. -/
def create (started : Bool) : EventLoop :=
  ⟨[], [], 1, 0, if started then [.loop] else []⟩

/-- The thread of the loop is in code of the caller's. -/
def inTask (s : EventLoop) : Bool :=
  match s.stack with
  | [] => true
  | .calling _ :: _ => true
  | _ => false

/-- `TaskQueue::post` -/
def post (s : EventLoop) (task : Option Task) (priority : Int) : EventLoop :=
  { s with queue := s.queue ++ [⟨priority, task⟩] }

def addTimer (s : EventLoop) (callable : Bool) (now interval : Int) (repeats : Bool) : EventLoop :=
  let timer : JobTimer :=
    { id := s.nextTimerId
      next := now + interval
      interval := interval
      repeats := repeats
      isActive := true
      callback := if callable then some (.callback s.added) else none
      timer := s.added }
  { s with
    timers := s.timers ++ [timer]
    nextTimerId := (s.nextTimerId + 1) % 0x10000000000000000
    added := s.added + 1 }.post (some .wake) 0

/-- Whether something was erased, and what. -/
def cancelTimer (s : EventLoop) (id : Nat) : EventLoop × Bool × List Nat :=
  let before := s.timers.length
  let rest := s.timers.filter fun t => t.id ≠ id
  let erased := (s.timers.filter fun t => t.id = id).map (·.timer)
  let s := { s with timers := rest }
  if rest.length ≠ before then (s.post (some .wake) 0, true, erased) else (s, false, erased)

/-- What a pass makes of a timer. -/
def turn (now : Int) (t : JobTimer) : JobTimer :=
  if t.expired now then
    if t.repeats then { t with next := now + t.interval } else { t with isActive := false }
  else t

def processTimers (s : EventLoop) (now : Int) : EventLoop :=
  { s with
    timers := (s.timers.map (turn now)).filter (·.isActive)
    queue := s.queue ++ (s.timers.filter (·.expired now)).map fun t => ⟨0, t.callback⟩ }

/-- Nothing in the queue goes before the item. -/
def isTop (s : EventLoop) (item : TaskItem) : Bool :=
  s.queue.all fun other => decide (item.priority ≤ other.priority)

/-- A task is called if there is one. -/
def call (s : EventLoop) : Option Task → EventLoop × List Event
  | none => (s, [])
  | some task =>
    ({ s with stack := .calling task :: s.stack },
      match task with
      | .callback timer => [.started timer]
      | _ => [])

/-- Where the thread goes on behind a `take`. -/
def behindTake : List Frame → Option (List Frame)
  | .loop :: rest => some (.processTimers true :: rest)
  | .processTasks inLoop i :: rest =>
    if i < 100 then some (.processTasks inLoop (i + 1) :: rest) else none
  | _ => none

/-- The end of `processTasks`. -/
def behindTasks (inLoop : Bool) (rest : List Frame) : List Frame :=
  if inLoop then .loop :: rest else rest

end EventLoop

open EventLoop

/-- One step; `none` where it cannot be taken. -/
def step (s : EventLoop) : Action → Option (EventLoop × List Event)
  | .addTimer onLoop callable now interval repeats =>
    if onLoop ∧ ¬ s.inTask then none
    else some (s.addTimer callable now interval repeats, [])
  | .post onLoop callable priority =>
    if onLoop ∧ ¬ s.inTask then none
    else some (s.post (if callable then some .posted else none) priority, [])
  | .cancelTimer onLoop id =>
    if onLoop ∧ ¬ s.inTask then none
    else
      let (s', ret, erased) := s.cancelTimer id
      some (s', [.cancelled onLoop id ret erased])
  | .runOnce =>
    if s.inTask then some ({ s with stack := .processTimers false :: s.stack }, []) else none
  | .processTimers now =>
    match s.stack with
    | .processTimers inLoop :: rest =>
      some ({ s.processTimers now with stack := .processTasks inLoop 0 :: rest }, [])
    | _ => none
  | .take i => do
    let stack ← behindTake s.stack
    let item ← s.queue[i]?
    if s.isTop item then some (call { s with queue := s.queue.eraseIdx i, stack := stack } item.task)
    else none
  | .takeNone =>
    match s.stack with
    | .loop :: rest =>
      if s.queue = [] then some ({ s with stack := .processTimers true :: rest }, []) else none
    | .processTasks inLoop i :: rest =>
      if i < 100 ∧ s.queue = [] then some ({ s with stack := behindTasks inLoop rest }, []) else none
    | _ => none
  | .done =>
    match s.stack with
    | .processTasks inLoop i :: rest =>
      if 100 ≤ i then some ({ s with stack := behindTasks inLoop rest }, []) else none
    | _ => none
  | .taskReturns =>
    match s.stack with
    | .calling _ :: rest => some ({ s with stack := rest }, [])
    | _ => none

/-- A run, with what happens in it. -/
def run (s : EventLoop) : List Action → Option (EventLoop × List Event)
  | [] => some (s, [])
  | action :: actions => do
    let (s', events) ← step s action
    let (s'', more) ← run s' actions
    return (s'', events ++ more)

/-- What is asked: behind a `cancelTimer` of the loop's thread that returned `true` none of the timers
that it took away is started. -/
def NeverFires (events : List Event) : Prop :=
  ∀ before after id erased, events = before ++ .cancelled true id true erased :: after →
    ∀ timer ∈ erased, .started timer ∉ after

/-- No copy of the callback of a repeating timer that the call takes away is in the queue. -/
def Clear (s : EventLoop) (id : Nat) : Prop :=
  ∀ t ∈ s.timers, t.id = id → t.repeats = true → ∀ item ∈ s.queue, item.task ≠ some (.callback t.timer)

instance (s : EventLoop) (id : Nat) : Decidable (Clear s id) :=
  inferInstanceAs (Decidable (∀ t ∈ s.timers, t.id = id → t.repeats = true →
    ∀ item ∈ s.queue, item.task ≠ some (.callback t.timer)))

def ClearStep (s : EventLoop) : Action → Prop
  | .cancelTimer true id => Clear s id
  | _ => True

instance (s : EventLoop) : (action : Action) → Decidable (ClearStep s action)
  | .cancelTimer true id => inferInstanceAs (Decidable (Clear s id))
  | .cancelTimer false _ => isTrue trivial
  | .addTimer .. => isTrue trivial
  | .post .. => isTrue trivial
  | .runOnce => isTrue trivial
  | .processTimers _ => isTrue trivial
  | .take _ => isTrue trivial
  | .takeNone => isTrue trivial
  | .done => isTrue trivial
  | .taskReturns => isTrue trivial

/-- The run calls `cancelTimer` in the loop's thread only where that is clear. -/
def ClearRun (s : EventLoop) : List Action → Prop
  | [] => True
  | action :: actions => ClearStep s action ∧ ∀ next ∈ step s action, ClearRun next.1 actions

instance decidableClearRun : (s : EventLoop) → (actions : List Action) →
    Decidable (ClearRun s actions)
  | _, [] => isTrue trivial
  | s, action :: actions =>
    have : ∀ next : EventLoop × List Event, Decidable (ClearRun next.1 actions) :=
      fun next => decidableClearRun next.1 actions
    inferInstanceAs (Decidable (ClearStep s action ∧ ∀ next ∈ step s action, ClearRun next.1 actions))

end AsyncEventLoop

end JobThreads
