import Mathlib.Data.BitVec
import Mathlib.Data.List.Count
import OddBuilder.Library.Interleaving

/-!
# Signal

Every access to an atomic is one step; what a section of `writeMutex` reads or
writes and only such sections do is part of the next. The nested calls of a
callback are calls like any other. The signal outlives its calls, so it is alive.
-/

namespace JobSignal

open Interleaving

/-- The flags of a connection, one bit each. -/
abbrev ConnectionFlag := BitVec 8

namespace ConnectionFlag

def none : ConnectionFlag := 0
def unique : ConnectionFlag := 1
def singleShot : ConnectionFlag := 2

end ConnectionFlag

def hasConnectionFlag (flags flag : ConnectionFlag) : Bool := flags &&& flag != 0

/-- `Connection::State`. Ids come again after `2 ^ 64` connections, objects do not. -/
structure ConnectionState where
  object : Nat
  id : BitVec 64
  flags : ConnectionFlag
  deriving DecidableEq

namespace ConnectionState

def isSingleShot (state : ConnectionState) : Bool :=
  hasConnectionFlag state.flags ConnectionFlag.singleShot

end ConnectionState

/-- Of the callback, whether there is one. -/
structure SignalEntry where
  state : ConnectionState
  callback : Bool
  receiverIdentity : Option Nat
  slotIdentity : Option Nat
  deriving DecidableEq

/-- The arguments of `connectImpl`. -/
structure ConnectCall where
  callback : Bool
  flags : ConnectionFlag
  receiverIdentity : Option Nat
  slotIdentity : Option Nat
  deriving DecidableEq

/-- With the claims of the connections, and those whose callbacks were started, latest first. -/
structure SignalState where
  connections : List SignalEntry
  writeMutex : Bool
  connectionCount : Nat
  singleShotCount : Nat
  nextConnectionId : BitVec 64
  blockState : Bool
  objects : Nat
  singleShotClaimed : Nat → Bool
  started : List ConnectionState

namespace SignalState

def create : SignalState := ⟨[], false, 0, 0, 1, false, 0, fun _ => false, []⟩

/-- `connectImpl` returns without a connection. -/
def refuses (s : SignalState) (call : ConnectCall) : Bool :=
  hasConnectionFlag call.flags ConnectionFlag.unique &&
    (call.receiverIdentity.isNone || call.slotIdentity.isNone ||
      s.connections.any fun entry => entry.receiverIdentity == call.receiverIdentity &&
        entry.slotIdentity == call.slotIdentity)

def newEntry (s : SignalState) (call : ConnectCall) : SignalEntry :=
  ⟨⟨s.objects, s.nextConnectionId, call.flags⟩, call.callback, call.receiverIdentity,
    call.slotIdentity⟩

/-- The state and its id of the next connection are taken, and a single-shot one is counted. -/
def allocate (s : SignalState) (call : ConnectCall) : SignalState :=
  { s with
    objects := s.objects + 1
    nextConnectionId := s.nextConnectionId + 1
    singleShotCount := s.singleShotCount +
      if hasConnectionFlag call.flags ConnectionFlag.singleShot then 1 else 0 }

def publish (s : SignalState) (connections : List SignalEntry) : SignalState :=
  { s with connections := connections }

def find (s : SignalState) (id : BitVec 64) : Option SignalEntry :=
  s.connections.find? fun entry => entry.state.id == id

def without (s : SignalState) (id : BitVec 64) : List SignalEntry :=
  s.connections.filter fun entry => entry.state.id != id

def claim (s : SignalState) (entry : SignalEntry) : SignalState :=
  { s with singleShotClaimed := Function.update s.singleShotClaimed entry.state.object true }

/-- The start of a callback. -/
def start (s : SignalState) (entry : SignalEntry) : SignalState :=
  { s with started := entry.state :: s.started }

section Fields

variable (s : SignalState) (call : ConnectCall) (entry : SignalEntry)
  (connections : List SignalEntry)

@[simp] theorem connections_allocate : (s.allocate call).connections = s.connections := rfl
@[simp] theorem writeMutex_allocate : (s.allocate call).writeMutex = s.writeMutex := rfl
@[simp] theorem started_allocate : (s.allocate call).started = s.started := rfl
@[simp] theorem singleShotClaimed_allocate :
    (s.allocate call).singleShotClaimed = s.singleShotClaimed := rfl

@[simp] theorem connections_publish : (s.publish connections).connections = connections := rfl
@[simp] theorem writeMutex_publish : (s.publish connections).writeMutex = s.writeMutex := rfl
@[simp] theorem singleShotCount_publish :
    (s.publish connections).singleShotCount = s.singleShotCount := rfl
@[simp] theorem started_publish : (s.publish connections).started = s.started := rfl
@[simp] theorem singleShotClaimed_publish :
    (s.publish connections).singleShotClaimed = s.singleShotClaimed := rfl

@[simp] theorem connections_claim : (s.claim entry).connections = s.connections := rfl
@[simp] theorem writeMutex_claim : (s.claim entry).writeMutex = s.writeMutex := rfl
@[simp] theorem singleShotCount_claim : (s.claim entry).singleShotCount = s.singleShotCount := rfl
@[simp] theorem started_claim : (s.claim entry).started = s.started := rfl

@[simp] theorem connections_start : (s.start entry).connections = s.connections := rfl
@[simp] theorem writeMutex_start : (s.start entry).writeMutex = s.writeMutex := rfl
@[simp] theorem singleShotCount_start : (s.start entry).singleShotCount = s.singleShotCount := rfl
@[simp] theorem started_start : (s.start entry).started = entry.state :: s.started := rfl
@[simp] theorem singleShotClaimed_start :
    (s.start entry).singleShotClaimed = s.singleShotClaimed := rfl

end Fields

end SignalState

/-- The sections of `writeMutex`. -/
inductive SignalSection where
  | connect (call : ConnectCall)
  | disconnect (id : BitVec 64)
  | disconnectAll
  deriving DecidableEq

/-- What the holder of `writeMutex` does next. -/
inductive SectionPc where
  | start (part : SignalSection)
  | publish (entry : SignalEntry)
  | raiseCount
  | lowerCount (singleShot : Bool)
  | lowerSingleShots
  | zeroCount
  | zeroSingleShots
  | leave
  deriving DecidableEq

/-- The callers, the calls of `emit` and those that change the connections. A call of `emit` waits
for the lock with the entry it has claimed and the rest of its snapshot. -/
inductive SignalThread where
  | caller
  | counting
  | blocking
  | loading
  | deciding (connections : List SignalEntry)
  | calling (connections : List SignalEntry)
  | claiming (connections : List SignalEntry)
  | waiting (part : SignalSection) (claimed : Option (SignalEntry × List SignalEntry))
  | inside (pc : SectionPc) (claimed : Option (SignalEntry × List SignalEntry))
  | firing (entry : SignalEntry) (connections : List SignalEntry)
  deriving DecidableEq

inductive SignalStep : LocalStep SignalState SignalThread where
  | emit (s) : SignalStep s .caller s {.counting, .caller}
  | connect (s call) : SignalStep s .caller s {.waiting (.connect call) none, .caller}
  | disconnect (s id) : SignalStep s .caller s {.waiting (.disconnect id) none, .caller}
  | disconnectAll (s) : SignalStep s .caller s {.waiting .disconnectAll none, .caller}
  | block (s b) : SignalStep s .caller { s with blockState := b } {.caller}
  -- emit
  | noConnections (s) (h : s.connectionCount = 0) : SignalStep s .counting s 0
  | connections (s) (h : s.connectionCount ≠ 0) : SignalStep s .counting s {.blocking}
  | blocked (s) (h : s.blockState = true) : SignalStep s .blocking s 0
  | unblocked (s) (h : s.blockState = false) : SignalStep s .blocking s {.loading}
  | load (s) : SignalStep s .loading s {.deciding s.connections}
  | noneSingleShot (s connections) (h : s.singleShotCount = 0) :
      SignalStep s (.deciding connections) s {.calling connections}
  | someSingleShot (s connections) (h : s.singleShotCount ≠ 0) :
      SignalStep s (.deciding connections) s {.claiming connections}
  | callNoMore (s) : SignalStep s (.calling []) s 0
  | call (s entry rest) (h : entry.callback = true) :
      SignalStep s (.calling (entry :: rest)) (s.start entry) {.calling rest}
  | callNothing (s entry rest) (h : entry.callback = false) :
      SignalStep s (.calling (entry :: rest)) s {.calling rest}
  -- emitWithSingleShot
  | claimNoMore (s) : SignalStep s (.claiming []) s 0
  | ordinary (s entry rest) (hflags : entry.state.isSingleShot = false)
      (h : entry.callback = true) :
      SignalStep s (.claiming (entry :: rest)) (s.start entry) {.claiming rest}
  | ordinaryNothing (s entry rest) (hflags : entry.state.isSingleShot = false)
      (h : entry.callback = false) : SignalStep s (.claiming (entry :: rest)) s {.claiming rest}
  | taken (s entry rest) (hflags : entry.state.isSingleShot = true)
      (h : s.singleShotClaimed entry.state.object = true) :
      SignalStep s (.claiming (entry :: rest)) s {.claiming rest}
  | claim (s entry rest) (hflags : entry.state.isSingleShot = true)
      (h : s.singleShotClaimed entry.state.object = false) :
      SignalStep s (.claiming (entry :: rest)) (s.claim entry)
        {.waiting (.disconnect entry.state.id) (some (entry, rest))}
  | fire (s entry rest) (h : entry.callback = true) :
      SignalStep s (.firing entry rest) (s.start entry) {.claiming rest}
  | fireNothing (s entry rest) (h : entry.callback = false) :
      SignalStep s (.firing entry rest) s {.claiming rest}
  -- the lock
  | lock (s part claimed) (h : s.writeMutex = false) :
      SignalStep s (.waiting part claimed) { s with writeMutex := true }
        {.inside (.start part) claimed}
  | unlock (s) : SignalStep s (.inside .leave none) { s with writeMutex := false } 0
  | unlockClaimed (s entry rest) :
      SignalStep s (.inside .leave (some (entry, rest))) { s with writeMutex := false }
        {.firing entry rest}
  -- connectImpl
  | refuse (s call claimed) (h : s.refuses call = true) :
      SignalStep s (.inside (.start (.connect call)) claimed) s {.inside .leave claimed}
  | accept (s call claimed) (h : s.refuses call = false) :
      SignalStep s (.inside (.start (.connect call)) claimed) (s.allocate call)
        {.inside (.publish (s.newEntry call)) claimed}
  | publish (s entry claimed) :
      SignalStep s (.inside (.publish entry) claimed) (s.publish (s.connections ++ [entry]))
        {.inside .raiseCount claimed}
  | raiseCount (s claimed) :
      SignalStep s (.inside .raiseCount claimed)
        { s with connectionCount := s.connectionCount + 1 } {.inside .leave claimed}
  -- disconnectState
  | missing (s id claimed) (h : s.find id = none) :
      SignalStep s (.inside (.start (.disconnect id)) claimed) s {.inside .leave claimed}
  | remove (s id claimed entry) (h : s.find id = some entry) :
      SignalStep s (.inside (.start (.disconnect id)) claimed) (s.publish (s.without id))
        {.inside (.lowerCount entry.state.isSingleShot) claimed}
  | lowerCount (s claimed) :
      SignalStep s (.inside (.lowerCount false) claimed)
        { s with connectionCount := s.connectionCount - 1 } {.inside .leave claimed}
  | lowerBoth (s claimed) :
      SignalStep s (.inside (.lowerCount true) claimed)
        { s with connectionCount := s.connectionCount - 1 } {.inside .lowerSingleShots claimed}
  | lowerSingleShots (s claimed) :
      SignalStep s (.inside .lowerSingleShots claimed)
        { s with singleShotCount := s.singleShotCount - 1 } {.inside .leave claimed}
  -- disconnectAllState
  | noneLeft (s claimed) (h : s.connections = []) :
      SignalStep s (.inside (.start .disconnectAll) claimed) s {.inside .leave claimed}
  | clear (s claimed) (h : s.connections ≠ []) :
      SignalStep s (.inside (.start .disconnectAll) claimed) (s.publish [])
        {.inside .zeroCount claimed}
  | zeroCount (s claimed) :
      SignalStep s (.inside .zeroCount claimed) { s with connectionCount := 0 }
        {.inside .zeroSingleShots claimed}
  | zeroSingleShots (s claimed) :
      SignalStep s (.inside .zeroSingleShots claimed) { s with singleShotCount := 0 }
        {.inside .leave claimed}

/-- A signal without connections, and who calls it. -/
def signalStart : Config SignalState SignalThread := ⟨.create, {.caller}⟩

end JobSignal
