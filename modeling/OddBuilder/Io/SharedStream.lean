import OddBuilder.Io.SharedMemory

/-!
# The byte stream of a shared ring

One writer and one reader are attached to a ring. Each side loads the other's
position, copies byte by byte, and stores its own position, and a run is any
interleaving of the two. A wait on the semaphore may return at any time, so that
nothing rests on how often it was posted.
-/

namespace JobIo

open List Option

namespace SharedStream

/-- What the writer is doing: the data of a `write` that found room, and how much is copied. -/
inductive Writer where
  | idle
  | copying (data : List UInt8) (done : Nat)
deriving DecidableEq

/-- What the reader is doing. In a copy `count` is the number of bytes this `read` takes and `out`
those it has. -/
inductive Reader where
  | idle
  | reading (maxlen : Nat) (nonBlocking : Bool)
  | waiting (maxlen : Nat)
  | copying (count : Nat) (out : List UInt8)
deriving DecidableEq

structure State where
  slots : Nat → UInt8
  writePos : Nat
  readPos : Nat
  writer : Writer
  reader : Reader

inductive Action where
  | write (data : List UInt8)
  | copyIn
  | storeWritePos
  | read (maxlen : Nat) (nonBlocking : Bool)
  | loadWritePos
  | semWait (ok : Bool)
  | copyOut
  | storeReadPos

/-- What a call comes to: a write is accepted when its position is stored. -/
inductive Event where
  | accepted (data : List UInt8)
  | refused (data : List UInt8)
  | returned (out : List UInt8)
  | again
  | waitFailed
deriving DecidableEq

/-- The start of `write`: the load of the reader's position, and the check for space. -/
def beginWrite (cap : Nat) (s : State) (data : List UInt8) : State × List Event :=
  if data.length > SharedRing.availableToWrite cap s.writePos s.readPos then (s, [.refused data])
  else ({ s with writer := .copying data 0 }, [])

/-- One byte of the copy into the ring. -/
def copyIn (cap : Nat) (s : State) (data : List UInt8) (done : Nat) : Option State :=
  data[done]?.map fun b =>
    { s with
      slots := Function.update s.slots (Ring.copyIndex cap (s.writePos % cap) data.length done) b
      writer := .copying data (done + 1) }

/-- The load of the writer's position in a `read`: bytes to copy, or `EAGAIN`, or the semaphore. -/
def loadWritePos (s : State) (maxlen : Nat) (nonBlocking : Bool) : State × List Event :=
  let avail := SharedRing.availableToRead s.writePos s.readPos
  if avail = 0 then
    if nonBlocking then ({ s with reader := .idle }, [.again])
    else ({ s with reader := .waiting maxlen }, [])
  else ({ s with reader := .copying (min maxlen avail) [] }, [])

/-- The return from `m_sem.wait`, after which a `read` that goes on looks again. -/
def semWait (s : State) (maxlen : Nat) (ok : Bool) : State × List Event :=
  if ok then ({ s with reader := .reading maxlen false }, [])
  else ({ s with reader := .idle }, [.waitFailed])

/-- One step of one side; `none` where the side is not at that step. -/
def step (cap : Nat) (s : State) : Action → Option (State × List Event)
  | .write data =>
    match s.writer with
    | .idle => some (beginWrite cap s data)
    | .copying .. => none
  | .copyIn =>
    match s.writer with
    | .idle => none
    | .copying data done => (copyIn cap s data done).map fun s => (s, [])
  | .storeWritePos =>
    match s.writer with
    | .idle => none
    | .copying data done =>
      if done = data.length then
        some ({ s with
          writePos := (s.writePos + data.length) % 2 ^ 64
          writer := .idle }, [.accepted data])
      else none
  | .read maxlen nonBlocking =>
    match s.reader with
    | .idle => some ({ s with reader := .reading maxlen nonBlocking }, [])
    | _ => none
  | .loadWritePos =>
    match s.reader with
    | .reading maxlen nonBlocking => some (loadWritePos s maxlen nonBlocking)
    | _ => none
  | .semWait ok =>
    match s.reader with
    | .waiting maxlen => some (semWait s maxlen ok)
    | _ => none
  | .copyOut =>
    match s.reader with
    | .copying count out =>
      if out.length < count then
        some ({ s with
          reader := .copying count
            (out ++ [s.slots (Ring.copyIndex cap (s.readPos % cap) count out.length)]) }, [])
      else none
    | _ => none
  | .storeReadPos =>
    match s.reader with
    | .copying count out =>
      if out.length = count then
        some ({ s with
          readPos := (s.readPos + count) % 2 ^ 64
          reader := .idle }, [.returned out])
      else none
    | _ => none

/-- A run, with what the calls in it come to. -/
def run (cap : Nat) : State → List Action → Option (State × List Event)
  | s, [] => some (s, [])
  | s, action :: actions => do
    let (s', events) ← step cap s action
    let (s'', more) ← run cap s' actions
    return (s'', events ++ more)

/-- A ring just attached; what stands in its slots does not matter. -/
def attached (slots : Nat → UInt8) : State := ⟨slots, 0, 0, .idle, .idle⟩

/-- The bytes of the accepted writes, one after the other. -/
def written (events : List Event) : List UInt8 :=
  events.flatMap fun
    | .accepted data => data
    | _ => []

/-- All that the reader has got. -/
def readBytes (events : List Event) : List UInt8 :=
  events.flatMap fun
    | .returned out => out
    | _ => []

theorem written_append (events more : List Event) :
    written (events ++ more) = written events ++ written more := flatMap_append

theorem readBytes_append (events more : List Event) :
    readBytes (events ++ more) = readBytes events ++ readBytes more := flatMap_append

/-- How far the reader is with the unread bytes. -/
def Reads (reader : Reader) (unread : List UInt8) : Prop :=
  match reader with
  | .copying count out =>
    count ≤ unread.length ∧ out.length ≤ count ∧ out = unread.take out.length
  | _ => True

/-- How far the writer is with its data, for which there is room behind the unread bytes. -/
def Writes (cap : Nat) (slots : Nat → UInt8) (writePos : Nat) (writer : Writer) (unread : Nat) :
    Prop :=
  match writer with
  | .idle => True
  | .copying data done => done ≤ data.length ∧ unread + data.length ≤ cap ∧
      Ring.Holds slots cap writePos (data.take done)

/-- The invariant of a run; every unread byte stands in the slot of its position. -/
structure Invariant (cap : Nat) (s : State) (unread : List UInt8) : Prop where
  positions : s.readPos + unread.length = s.writePos
  bound : s.writePos < 2 ^ 64
  room : unread.length ≤ cap
  holds : Ring.Holds s.slots cap s.readPos unread
  reads : Reads s.reader unread
  writes : Writes cap s.slots s.writePos s.writer unread.length

theorem attached_invariant (cap : Nat) (slots : Nat → UInt8) :
    Invariant cap (attached slots) [] where
  positions := rfl
  bound := Nat.two_pow_pos 64
  room := Nat.zero_le _
  holds := Ring.holds_nil _ _ _
  reads := trivial
  writes := trivial

theorem Reads.append {reader : Reader} {unread : List UInt8} (h : Reads reader unread)
    (data : List UInt8) : Reads reader (unread ++ data) := by
  cases reader with
  | idle => trivial
  | reading => trivial
  | waiting => trivial
  | copying count out =>
    obtain ⟨hcount, hout, htake⟩ := h
    refine ⟨?_, hout, ?_⟩
    · rw [length_append]
      omega
    · rw [take_append_of_le_length (by omega)]
      exact htake

theorem Writes.fewer {cap writePos unread unread' : Nat} {slots : Nat → UInt8} {writer : Writer}
    (h : Writes cap slots writePos writer unread) (hle : unread' ≤ unread) :
    Writes cap slots writePos writer unread' := by
  cases writer with
  | idle => trivial
  | copying data done =>
    obtain ⟨hdone, hroom, htaken⟩ := h
    exact ⟨hdone, by omega, htaken⟩

section Steps

variable {cap : Nat} {s s' : State} {unread : List UInt8} {events : List Event}

theorem Invariant.availableToRead (inv : Invariant cap s unread) :
    SharedRing.availableToRead s.writePos s.readPos = unread.length := by
  have hpositions := inv.positions
  rw [SharedRing.availableToRead_of_le (by omega) inv.bound]
  omega

theorem Invariant.availableToWrite (hcap : cap < 2 ^ 64) (inv : Invariant cap s unread) :
    SharedRing.availableToWrite cap s.writePos s.readPos = cap - (s.writePos - s.readPos) := by
  have hread := inv.availableToRead
  have hpositions := inv.positions
  rw [SharedRing.availableToWrite_eq hcap (hread ▸ inv.room)]
  omega

/-- A reader that is not copying has no claim on the unread bytes. -/
theorem Invariant.withReader (inv : Invariant cap s unread) {reader : Reader}
    (h : Reads reader unread) : Invariant cap { s with reader := reader } unread :=
  { inv with reads := h }

/-- What one step comes to: what was unread and what is accepted is read or unread now. -/
def Stepped (cap : Nat) (s : State) (unread : List UInt8) (s' : State) (events : List Event) : Prop :=
  ∃ unread', Invariant cap s' unread' ∧
    unread ++ written events = readBytes events ++ unread' ∧
    s'.writePos = s.writePos + (written events).length

/-- A step that moves neither position. -/
theorem Invariant.stepped (inv : Invariant cap s' unread) (hpos : s'.writePos = s.writePos)
    (hwritten : written events = []) (hread : readBytes events = []) :
    Stepped cap s unread s' events := by
  refine ⟨unread, inv, ?_, ?_⟩
  · rw [hwritten, hread, append_nil, nil_append]
  · rw [hwritten, hpos, length_nil, Nat.add_zero]

theorem beginWrite_stepped (hcap : cap < 2 ^ 64) (inv : Invariant cap s unread)
    (data : List UInt8) :
    Stepped cap s unread (beginWrite cap s data).1 (beginWrite cap s data).2 := by
  simp only [beginWrite, inv.availableToWrite hcap]
  split
  · exact inv.stepped rfl rfl rfl
  · have hpositions := inv.positions
    have hunread := inv.room
    have hbegun : Invariant cap { s with writer := .copying data 0 } unread :=
      { inv with writes := ⟨Nat.zero_le _, by omega, Ring.holds_nil _ _ _⟩ }
    exact hbegun.stepped rfl rfl rfl

/-- The bytes that come into the ring stand behind the unread ones. -/
theorem copyIn_stepped (inv : Invariant cap s unread) {data : List UInt8} {done : Nat}
    (hwriter : s.writer = .copying data done) (h : copyIn cap s data done = some s') :
    Stepped cap s unread s' [] := by
  have hwrites := inv.writes
  rw [hwriter] at hwrites
  obtain ⟨-, hroom, htaken⟩ := hwrites
  obtain ⟨b, hb, rfl⟩ := map_eq_some_iff.mp h
  have hdone : done < data.length := (List.getElem?_eq_some_iff.mp hb).1
  have hslot : Ring.copyIndex cap (s.writePos % cap) data.length done = (s.writePos + done) % cap :=
    Ring.copyIndex_eq (by omega) (by omega) hdone
  have hpositions := inv.positions
  have hlength : (data.take done).length = done := by
    rw [length_take]
    omega
  have hnext := htaken.snoc (by omega) b
  rw [hlength] at hnext
  refine Invariant.stepped ⟨hpositions, inv.bound, inv.room, ?_, inv.reads, ?_⟩ rfl rfl rfl
  · simp only [hslot]
    exact inv.holds.update (by omega) (by omega) b
  · simp only [hslot]
    refine ⟨hdone, hroom, ?_⟩
    rw [take_add_one, hb]
    exact hnext

/-- The whole data comes to be unread at once. -/
theorem storeWritePos_stepped (inv : Invariant cap s unread) {data : List UInt8}
    (hwriter : s.writer = .copying data data.length)
    (hbytes : s.writePos + data.length < 2 ^ 64) :
    Stepped cap s unread
      { s with
        writePos := (s.writePos + data.length) % 2 ^ 64
        writer := .idle } [.accepted data] := by
  have hwrites := inv.writes
  rw [hwriter] at hwrites
  obtain ⟨-, hroom, htaken⟩ := hwrites
  rw [take_length, ← inv.positions] at htaken
  have hpositions := inv.positions
  rw [Nat.mod_eq_of_lt hbytes]
  refine ⟨unread ++ data, ?_, by simp [written, readBytes], by simp [written]⟩
  constructor
  · simp only [length_append]
    omega
  · exact hbytes
  · rw [length_append]
    exact hroom
  · exact Ring.holds_append.mpr ⟨inv.holds, htaken⟩
  · exact inv.reads.append data
  · trivial

theorem loadWritePos_stepped (inv : Invariant cap s unread) (maxlen : Nat) (nonBlocking : Bool) :
    Stepped cap s unread (loadWritePos s maxlen nonBlocking).1
      (loadWritePos s maxlen nonBlocking).2 := by
  simp only [loadWritePos, inv.availableToRead]
  split
  · split
    · exact Invariant.stepped (inv.withReader trivial) rfl rfl rfl
    · exact Invariant.stepped (inv.withReader trivial) rfl rfl rfl
  · exact Invariant.stepped (inv.withReader ⟨Nat.min_le_right _ _, Nat.zero_le _, rfl⟩) rfl rfl rfl

theorem semWait_stepped (inv : Invariant cap s unread) (maxlen : Nat) (ok : Bool) :
    Stepped cap s unread (semWait s maxlen ok).1 (semWait s maxlen ok).2 := by
  cases ok with
  | true => exact Invariant.stepped (inv.withReader trivial) rfl rfl rfl
  | false => exact Invariant.stepped (inv.withReader trivial) rfl rfl rfl

theorem copyOut_stepped (inv : Invariant cap s unread) {count : Nat} {out : List UInt8}
    (hreader : s.reader = .copying count out) (hlt : out.length < count) :
    Stepped cap s unread
      { s with
        reader := .copying count
          (out ++ [s.slots (Ring.copyIndex cap (s.readPos % cap) count out.length)]) } [] := by
  have hreads := inv.reads
  have hroom := inv.room
  rw [hreader] at hreads
  obtain ⟨hcount, -, htake⟩ := hreads
  have hunread : out.length < unread.length := by omega
  have hslot : s.slots ((s.readPos + out.length) % cap) = unread[out.length] :=
    inv.holds out.length _ (List.getElem?_eq_getElem hunread)
  refine Invariant.stepped (inv.withReader ⟨hcount, ?_, ?_⟩) rfl rfl rfl
  · rw [length_append]
    exact hlt
  · rw [Ring.copyIndex_eq (by omega) (by omega) hlt, hslot, length_append,
      length_singleton, take_succ_eq_append_getElem hunread, ← htake]

/-- The bytes copied were the first of those unread. -/
theorem storeReadPos_stepped (inv : Invariant cap s unread) {out : List UInt8}
    (hreader : s.reader = .copying out.length out) :
    Stepped cap s unread
      { s with
        readPos := (s.readPos + out.length) % 2 ^ 64
        reader := .idle } [.returned out] := by
  have hreads := inv.reads
  rw [hreader] at hreads
  obtain ⟨hcount, -, htake⟩ := hreads
  have hpositions := inv.positions
  have hbound := inv.bound
  have hroom := inv.room
  have hsplit : unread = out ++ unread.drop out.length := by
    conv_lhs => rw [← take_append_drop out.length unread, ← htake]
  have hholds := inv.holds
  rw [hsplit] at hholds
  have hdrop : (unread.drop out.length).length = unread.length - out.length := length_drop
  rw [Nat.mod_eq_of_lt (by omega)]
  refine ⟨unread.drop out.length, ?_, ?_, rfl⟩
  · constructor
    · dsimp only
      omega
    · exact hbound
    · omega
    · exact (Ring.holds_append.mp hholds).2
    · trivial
    · exact inv.writes.fewer (by omega)
  · simpa [written, readBytes] using hsplit

theorem step_stepped (hcap : cap < 2 ^ 64) (inv : Invariant cap s unread) {action : Action}
    (h : step cap s action = some (s', events))
    (hbytes : s.writePos + (written events).length < 2 ^ 64) :
    Stepped cap s unread s' events := by
  cases action with
  | write data =>
    cases hwriter : s.writer with
    | idle =>
      simp only [step, hwriter, Option.some.injEq] at h
      simpa [h] using beginWrite_stepped hcap inv data
    | copying => simp [step, hwriter] at h
  | copyIn =>
    cases hwriter : s.writer with
    | idle => simp [step, hwriter] at h
    | copying data done =>
      simp only [step, hwriter, map_eq_some_iff] at h
      obtain ⟨s'', hcopy, rfl, rfl⟩ := h
      exact copyIn_stepped inv hwriter hcopy
  | storeWritePos =>
    cases hwriter : s.writer with
    | idle => simp [step, hwriter] at h
    | copying data done =>
      simp only [step, hwriter, ite_none_right_eq_some] at h
      obtain ⟨rfl, rfl, rfl⟩ := h
      apply storeWritePos_stepped inv hwriter
      simpa [written] using hbytes
  | read maxlen nonBlocking =>
    cases hreader : s.reader with
    | idle =>
      simp only [step, hreader] at h
      obtain ⟨rfl⟩ := h
      exact Invariant.stepped (inv.withReader trivial) rfl rfl rfl
    | reading => simp [step, hreader] at h
    | waiting => simp [step, hreader] at h
    | copying => simp [step, hreader] at h
  | loadWritePos =>
    cases hreader : s.reader with
    | reading maxlen nonBlocking =>
      simp only [step, hreader, Option.some.injEq] at h
      simpa [h] using loadWritePos_stepped inv maxlen nonBlocking
    | idle => simp [step, hreader] at h
    | waiting => simp [step, hreader] at h
    | copying => simp [step, hreader] at h
  | semWait ok =>
    cases hreader : s.reader with
    | waiting maxlen =>
      simp only [step, hreader, Option.some.injEq] at h
      simpa [h] using semWait_stepped inv maxlen ok
    | idle => simp [step, hreader] at h
    | reading => simp [step, hreader] at h
    | copying => simp [step, hreader] at h
  | copyOut =>
    cases hreader : s.reader with
    | copying count out =>
      simp only [step, hreader, ite_none_right_eq_some] at h
      obtain ⟨hlt, rfl, rfl⟩ := h
      exact copyOut_stepped inv hreader hlt
    | idle => simp [step, hreader] at h
    | reading => simp [step, hreader] at h
    | waiting => simp [step, hreader] at h
  | storeReadPos =>
    cases hreader : s.reader with
    | copying count out =>
      simp only [step, hreader, ite_none_right_eq_some] at h
      obtain ⟨rfl, rfl, rfl⟩ := h
      exact storeReadPos_stepped inv hreader
    | idle => simp [step, hreader] at h
    | reading => simp [step, hreader] at h
    | waiting => simp [step, hreader] at h

end Steps

theorem run_stepped {cap : Nat} (hcap : cap < 2 ^ 64) {s s' : State} {unread : List UInt8}
    (inv : Invariant cap s unread) {actions : List Action} {events : List Event}
    (h : run cap s actions = some (s', events))
    (hbytes : s.writePos + (written events).length < 2 ^ 64) :
    Stepped cap s unread s' events := by
  induction actions generalizing s unread events with
  | nil =>
    obtain ⟨rfl⟩ := h
    exact inv.stepped rfl rfl rfl
  | cons action actions ih =>
    simp only [run, bind_eq_bind, bind_eq_some_iff, Prod.exists] at h
    obtain ⟨s₁, first, hstep, s₂, more, hrun, rfl, rfl⟩ := h
    rw [written_append, length_append] at hbytes
    obtain ⟨unread₁, inv₁, hfirst, hpos⟩ := step_stepped hcap inv hstep (by omega)
    obtain ⟨unread₂, inv₂, hmore, hpos'⟩ := ih inv₁ hrun (by omega)
    refine ⟨unread₂, inv₂, ?_, ?_⟩
    · calc unread ++ written (first ++ more)
          = (readBytes first ++ unread₁) ++ written more := by
            rw [written_append, ← append_assoc, hfirst]
        _ = readBytes (first ++ more) ++ unread₂ := by
            rw [append_assoc, hmore, readBytes_append, append_assoc]
    · rw [written_append, length_append]
      omega

/-- Nothing stops a write once it has found room: its bytes come in and are accepted together. -/
theorem run_copyIn (cap : Nat) (data : List UInt8) (left : Nat) (s : State)
    (h : s.writer = .copying data (data.length - left)) (hleft : left ≤ data.length) :
    ∃ s', run cap s (List.replicate left .copyIn ++ [.storeWritePos]) =
      some (s', [.accepted data]) := by
  induction left generalizing s with
  | zero =>
    refine ⟨{ s with writePos := (s.writePos + data.length) % 2 ^ 64, writer := .idle }, ?_⟩
    simp [run, step, h]
  | succ left ih =>
    have hlt : data.length - (left + 1) < data.length := by omega
    obtain ⟨s', hs'⟩ : ∃ s', copyIn cap s data (data.length - (left + 1)) = some s' ∧
        s'.writer = .copying data (data.length - left) := by
      rw [copyIn, List.getElem?_eq_getElem hlt]
      refine ⟨_, rfl, ?_⟩
      rw [show data.length - (left + 1) + 1 = data.length - left by omega]
    obtain ⟨s'', hrun⟩ := ih s' hs'.2 (by omega)
    refine ⟨s'', ?_⟩
    simp [replicate_succ, run, step, h, hs'.1, hrun]

/-- What holds of a ring of `cap` bytes after a run with these events. -/
structure Fifo (cap : Nat) (s : State) (events : List Event) : Prop where
  ordered : s.readPos ≤ s.writePos
  bounded : s.writePos - s.readPos ≤ cap
  stream : readBytes events <+: written events
  /-- What the positions count: the bytes of whole writes, and those read. -/
  writePos : s.writePos = (written events).length
  readPos : s.readPos = (readBytes events).length
  /-- A write begins, or is refused and leaves everything as it is. -/
  accepts : s.writer = .idle → ∀ data, step cap s (.write data) =
    if data.length ≤ cap - (s.writePos - s.readPos) then
      some ({ s with writer := .copying data 0 }, [])
    else some (s, [.refused data])
  /-- A write that has begun ends with all its data accepted. -/
  whole : ∀ data done, s.writer = .copying data done → ∃ s',
    run cap s (List.replicate (data.length - done) .copyIn ++ [.storeWritePos]) =
      some (s', [.accepted data])

/-- In every interleaving of writes and reads the ring is a queue of bytes. -/
theorem run_fifo (cap : UInt32) (slots : Nat → UInt8) (actions : List Action) (s : State)
    (events : List Event) (h : run cap.toNat (attached slots) actions = some (s, events))
    (hbytes : (written events).length < 2 ^ 64) : Fifo cap.toNat s events := by
  have hcap : cap.toNat < 2 ^ 64 := lt_trans cap.toNat_lt (by decide)
  obtain ⟨unread, inv, hstream, hpos⟩ :=
    run_stepped hcap (attached_invariant cap.toNat slots) h (by simpa [attached] using hbytes)
  have hwritten : s.writePos = (written events).length := by simpa [attached] using hpos
  have hlength := congrArg List.length hstream
  simp only [nil_append, length_append] at hlength
  have hpositions := inv.positions
  have hroom := inv.room
  constructor
  · omega
  · omega
  · exact ⟨unread, hstream.symm⟩
  · exact hwritten
  · omega
  · intro hidle data
    simp only [step, hidle, beginWrite, inv.availableToWrite hcap, gt_iff_lt, ← Nat.not_le, ite_not]
    split
    · rfl
    · rfl
  · intro data done hwriter
    have hwrites := inv.writes
    rw [hwriter] at hwrites
    apply run_copyIn cap.toNat data (data.length - done) s ?_ (by omega)
    rw [hwriter, Nat.sub_sub_self hwrites.1]

/-- Three bytes in a ring of four, two of them read, and three more, which go round the end. -/
def wrappedActions : List Action :=
  Action.write [1, 2, 3] :: List.replicate 3 Action.copyIn ++ Action.storeWritePos ::
    Action.read 2 false :: Action.loadWritePos :: List.replicate 2 Action.copyOut ++
    Action.storeReadPos :: Action.write [4, 5, 6, 7] :: Action.write [4, 5, 6] ::
    List.replicate 3 Action.copyIn ++ Action.storeWritePos :: Action.read 9 true ::
    Action.loadWritePos :: List.replicate 4 Action.copyOut ++ [Action.storeReadPos]

theorem run_fifo_wrapped :
    ∃ s events, run (UInt32.toNat 4) (attached fun _ => 0) wrappedActions = some (s, events) ∧
      events = [.accepted [1, 2, 3], .returned [1, 2], .refused [4, 5, 6, 7], .accepted [4, 5, 6],
        .returned [3, 4, 5, 6]] ∧
      Fifo (UInt32.toNat 4) s events := by
  have hevents : (run (UInt32.toNat 4) (attached fun _ => 0) wrappedActions).map Prod.snd =
      some [.accepted [1, 2, 3], .returned [1, 2], .refused [4, 5, 6, 7], .accepted [4, 5, 6],
        .returned [3, 4, 5, 6]] := by
    decide +kernel
  obtain ⟨⟨s, events⟩, hrun, rfl⟩ := map_eq_some_iff.mp hevents
  exact ⟨s, _, hrun, rfl, run_fifo 4 _ _ _ _ hrun (by decide)⟩

end SharedStream

end JobIo
