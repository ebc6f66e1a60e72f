import OddBuilder.Library.LittleEndian
import OddBuilder.Io.SharedMemory
import OddBuilder.Token.Vocab

/-!
# Token packets over shared memory

One producer writes packets into an attached ring while one consumer reads them.
Each side goes step by step: it loads the other side's position, copies byte by
byte, and stores its own position. A run is any interleaving of the two. The
number in a packet's header is in the byte order of a little-endian machine.
-/

namespace JobTokenizer

open JobIo List Option

namespace TokenShm

variable {pending : List Packet} {unread : List UInt8} {phase : Phase} {cap : Nat} {s : State}

inductive TokenPacketType where
  | Tokens | Text | Eos | Reset | Heartbeat
deriving DecidableEq

namespace TokenPacketType

def toByte : TokenPacketType → UInt8
  | .Tokens => 1
  | .Text => 2
  | .Eos => 3
  | .Reset => 4
  | .Heartbeat => 5

/-- The check of the type in a header. -/
def ofByte (b : UInt8) : Option TokenPacketType :=
  if b = 1 then some .Tokens
  else if b = 2 then some .Text
  else if b = 3 then some .Eos
  else if b = 4 then some .Reset
  else if b = 5 then some .Heartbeat
  else none

theorem ofByte_toByte (type : TokenPacketType) : ofByte type.toByte = some type := by
  cases type <;> rfl

end TokenPacketType

structure Packet where
  type : TokenPacketType
  payload : List UInt8
deriving DecidableEq

inductive WriteCall where
  | writeToken (id : TokenId)
  | writeTokens (ids : List TokenId)
  | writeText (text : Text)
  | writeEos
  | writeReset
  | writeHeartbeat

def tokenBytes (id : TokenId) : List UInt8 := LittleEndian.encode 4 id.toUInt32.toNat

/-- The packet a call asks for; no packet for no tokens and for no text. -/
def WriteCall.packet : WriteCall → Option Packet
  | .writeToken id => some ⟨.Tokens, tokenBytes id⟩
  | .writeTokens ids => if ids.isEmpty then none else some ⟨.Tokens, ids.flatMap tokenBytes⟩
  | .writeText text => if text.isEmpty then none else some ⟨.Text, text⟩
  | .writeEos => some ⟨.Eos, []⟩
  | .writeReset => some ⟨.Reset, []⟩
  | .writeHeartbeat => some ⟨.Heartbeat, []⟩

/-- `sizeof(TokenPacketHeader)`. -/
def headerSize : Nat := 8

/-- `TokenPacketHeader`, with nothing in its reserved field and its flags. -/
def header (packet : Packet) : List UInt8 :=
  LittleEndian.encode 4 packet.payload.length ++ [0, 0, packet.type.toByte, 0]

def frame (packet : Packet) : List UInt8 := header packet ++ packet.payload

/-- The size and the type that stand in a header. -/
def parseHeader (bytes : List UInt8) : Nat × Option TokenPacketType :=
  (LittleEndian.decode (bytes.take 4), (bytes[6]?).bind TokenPacketType.ofByte)

/-- What the producer is doing: a packet it writes, and how many bytes of its frame are in place. -/
inductive Producer where
  | idle
  | copying (packet : Packet) (done : Nat)

/-- What `readNextPacket` reads: a header, or the payload a header has announced. -/
inductive Phase where
  | header
  | payload (type : TokenPacketType) (payloadBytes : Nat)

def Phase.bytes : Phase → Nat
  | .header => headerSize
  | .payload _ payloadBytes => payloadBytes

/-- What the consumer is doing. `got` is what `readExact` has so far; in a copy `count` is the number
of bytes this `read` takes and `out` those it has. -/
inductive Consumer where
  | idle
  | readExact (phase : Phase) (got : List UInt8)
  | copying (phase : Phase) (got : List UInt8) (count : Nat) (out : List UInt8)

structure State where
  slots : Nat → UInt8
  writePos : Nat
  readPos : Nat
  producer : Producer
  consumer : Consumer

inductive Action where
  | write (call : WriteCall)
  | copyIn
  | storeWritePos
  | readNextPacket
  | loadWritePos
  | copyOut
  | storeReadPos

/-- What a call comes to: a packet is accepted when its position is stored. -/
inductive Event where
  | accepted (packet : Packet)
  | refused (packet : Packet)
  | returned (packet : Packet)
  | nothing
deriving DecidableEq

/-- The start of `write`: the checks, and the load of the reader's position. -/
def beginWrite (cap : Nat) (s : State) (call : WriteCall) : State × List Event :=
  match call.packet with
  | none => (s, [])
  | some packet =>
    if packet.payload.length > 2 ^ 32 - 1 then (s, [.refused packet])
    else if (frame packet).length > SharedRing.availableToWrite cap s.writePos s.readPos then
      (s, [.refused packet])
    else ({ s with producer := .copying packet 0 }, [])

/-- One byte of the copy into the ring. -/
def copyIn (cap : Nat) (s : State) (packet : Packet) (done : Nat) : Option State :=
  (frame packet)[done]?.map fun b =>
    { s with
      slots := Function.update s.slots
        (Ring.copyIndex cap (s.writePos % cap) (frame packet).length done) b
      producer := .copying packet (done + 1) }

/-- The load of the writer's position in a `read`. -/
def loadWritePos (s : State) (phase : Phase) (got : List UInt8) : State × List Event :=
  let avail := SharedRing.availableToRead s.writePos s.readPos
  if avail = 0 then ({ s with consumer := .idle }, [.nothing])
  else ({ s with consumer := .copying phase got (min (phase.bytes - got.length) avail) [] }, [])

/-- What follows once `readExact` has all its bytes. -/
def finish (phase : Phase) (bytes : List UInt8) : Consumer × List Event :=
  match phase with
  | .header =>
    match parseHeader bytes with
    | (_, none) => (.idle, [.nothing])
    | (0, some type) => (.idle, [.returned ⟨type, []⟩])
    | (payloadBytes, some type) => (.readExact (.payload type payloadBytes) [], [])
  | .payload type _ => (.idle, [.returned ⟨type, bytes⟩])

/-- The end of a `read`: the position is stored, and `readExact` goes on until it has all. -/
def storeReadPos (s : State) (phase : Phase) (got : List UInt8) (count : Nat) (out : List UInt8) :
    State × List Event :=
  let s := { s with readPos := (s.readPos + count) % 2 ^ 64 }
  let bytes := got ++ out
  if bytes.length < phase.bytes then ({ s with consumer := .readExact phase bytes }, [])
  else
    let (consumer, events) := finish phase bytes
    ({ s with consumer := consumer }, events)

/-- One step of one side; `none` where the side is not at that step. -/
def step (cap : Nat) (s : State) : Action → Option (State × List Event)
  | .write call =>
    match s.producer with
    | .idle => some (beginWrite cap s call)
    | .copying .. => none
  | .copyIn =>
    match s.producer with
    | .idle => none
    | .copying packet done => (copyIn cap s packet done).map fun s => (s, [])
  | .storeWritePos =>
    match s.producer with
    | .idle => none
    | .copying packet done =>
      if done = (frame packet).length then
        some ({ s with
          writePos := (s.writePos + (frame packet).length) % 2 ^ 64
          producer := .idle }, [.accepted packet])
      else none
  | .readNextPacket =>
    match s.consumer with
    | .idle => some ({ s with consumer := .readExact .header [] }, [])
    | _ => none
  | .loadWritePos =>
    match s.consumer with
    | .readExact phase got => some (loadWritePos s phase got)
    | _ => none
  | .copyOut =>
    match s.consumer with
    | .copying phase got count out =>
      if out.length < count then
        some ({ s with
          consumer := .copying phase got count
            (out ++ [s.slots (Ring.copyIndex cap (s.readPos % cap) count out.length)]) }, [])
      else none
    | _ => none
  | .storeReadPos =>
    match s.consumer with
    | .copying phase got count out =>
      if out.length = count then some (storeReadPos s phase got count out) else none
    | _ => none

/-- A run, with what the calls in it come to. -/
def run (cap : Nat) : State → List Action → Option (State × List Event)
  | s, [] => some (s, [])
  | s, action :: actions => do
    let (s', events) ← step cap s action
    let (s'', more) ← run cap s' actions
    return (s'', events ++ more)

/-- A ring just attached; what stands in its slots does not matter. -/
def attached (slots : Nat → UInt8) : State := ⟨slots, 0, 0, .idle, .idle⟩

def accepted (events : List Event) : List Packet :=
  events.filterMap fun
    | .accepted packet => some packet
    | _ => none

def returned (events : List Event) : List Packet :=
  events.filterMap fun
    | .returned packet => some packet
    | _ => none

/-- All bytes written in a run. -/
def bytesWritten (events : List Event) : Nat := ((accepted events).flatMap frame).length

@[simp] theorem length_header (packet : Packet) : (header packet).length = headerSize := by
  simp [header, headerSize]

theorem length_frame (packet : Packet) :
    (frame packet).length = headerSize + packet.payload.length := by
  simp [frame]

/-- A header says what its packet is. -/
theorem parseHeader_header {packet : Packet} (h : packet.payload.length < 2 ^ 32) :
    parseHeader (header packet) = (packet.payload.length, some packet.type) := by
  have hlength : (LittleEndian.encode 4 packet.payload.length).length = 4 :=
    LittleEndian.length_encode _ _
  have hsize : (header packet).take 4 = LittleEndian.encode 4 packet.payload.length := by
    rw [header, take_left' hlength]
  have htype : (header packet)[6]? = some packet.type.toByte := by
    rfl
  rw [parseHeader, hsize, htype, LittleEndian.decode_encode, Nat.mod_eq_of_lt (by omega)]
  simp [TokenPacketType.ofByte_toByte]

theorem flatMap_frame_eq_nil (h : pending.flatMap frame = []) : pending = [] := by
  cases pending with
  | nil => rfl
  | cons packet rest =>
    have hlength := congrArg List.length h
    simp [length_frame, headerSize] at hlength

/-- What stands unread in the ring when a phase begins, and which packets it belongs to. -/
def Ahead : Phase → List Packet → List UInt8 → Prop
  | .header, pending, unread => unread = pending.flatMap frame
  | .payload type payloadBytes, pending, unread => ∃ packet rest, pending = packet :: rest ∧
      packet.type = type ∧ packet.payload.length = payloadBytes ∧ 0 < payloadBytes ∧
      unread = packet.payload ++ rest.flatMap frame

theorem Ahead.append (h : Ahead phase pending unread) (packet : Packet) :
    Ahead phase (pending ++ [packet]) (unread ++ frame packet) := by
  cases phase with
  | header => simp [show unread = pending.flatMap frame from h, Ahead]
  | payload type payloadBytes =>
    obtain ⟨first, rest, rfl, htype, hsize, hpos, rfl⟩ := h
    exact ⟨first, rest ++ [packet], rfl, htype, hsize, hpos, by simp⟩

/-- Nothing is unread only when no packet is pending. -/
theorem Ahead.nil (h : Ahead phase pending []) : pending = [] := by
  cases phase with
  | header => exact flatMap_frame_eq_nil (Eq.symm h)
  | payload type payloadBytes =>
    obtain ⟨first, rest, rfl, -, rfl, hpos, hnil⟩ := h
    have hlength := congrArg List.length hnil
    simp only [length_nil, length_append] at hlength
    omega

/-- Where something is unread, all that the phase reads is there. -/
theorem Ahead.bytes_le (h : Ahead phase pending unread) (hne : unread ≠ []) :
    phase.bytes ≤ unread.length := by
  cases phase with
  | header =>
    obtain rfl : unread = pending.flatMap frame := h
    cases pending with
    | nil => simp at hne
    | cons packet rest =>
      simp only [flatMap_cons, length_append, length_frame, Phase.bytes]
      omega
  | payload type payloadBytes =>
    obtain ⟨first, rest, -, -, rfl, -, rfl⟩ := h
    simp [Phase.bytes]

/-- How far the consumer is with the unread bytes. -/
def Reads (consumer : Consumer) (pending : List Packet) (unread : List UInt8) : Prop :=
  match consumer with
  | .idle => Ahead .header pending unread
  | .readExact phase got => got = [] ∧ Ahead phase pending unread
  | .copying phase got count out => got = [] ∧ Ahead phase pending unread ∧
      count = phase.bytes ∧ phase.bytes ≤ unread.length ∧ out.length ≤ count ∧
      out = unread.take out.length

/-- How far the producer is with its frame, for which there is room behind the unread bytes. -/
def Writes (cap : Nat) (slots : Nat → UInt8) (writePos : Nat) (producer : Producer) (unread : Nat) :
    Prop :=
  match producer with
  | .idle => True
  | .copying packet done => packet.payload.length < 2 ^ 32 ∧ done ≤ (frame packet).length ∧
      unread + (frame packet).length ≤ cap ∧
      Ring.Holds slots cap writePos ((frame packet).take done)

/-- The invariant of a run: the packets accepted and not yet returned, and the unread bytes. -/
structure Invariant (cap : Nat) (s : State) (pending : List Packet) (unread : List UInt8) : Prop where
  sized : ∀ packet ∈ pending, packet.payload.length < 2 ^ 32
  positions : s.readPos + unread.length = s.writePos
  bound : s.writePos < 2 ^ 64
  room : unread.length ≤ cap
  holds : Ring.Holds s.slots cap s.readPos unread
  reads : Reads s.consumer pending unread
  writes : Writes cap s.slots s.writePos s.producer unread.length

theorem attached_invariant (cap : Nat) (slots : Nat → UInt8) :
    Invariant cap (attached slots) [] [] where
  sized := by simp
  positions := rfl
  bound := Nat.two_pow_pos 64
  room := Nat.zero_le _
  holds := Ring.holds_nil _ _ _
  reads := rfl
  writes := trivial

theorem Invariant.availableToRead (inv : Invariant cap s pending unread) :
    SharedRing.availableToRead s.writePos s.readPos = unread.length := by
  have hpositions := inv.positions
  rw [SharedRing.availableToRead_of_le (by omega) inv.bound]
  omega

theorem Invariant.availableToWrite (hcap : cap < 2 ^ 64) (inv : Invariant cap s pending unread) :
    SharedRing.availableToWrite cap s.writePos s.readPos = cap - unread.length := by
  have hread := inv.availableToRead
  rw [SharedRing.availableToWrite_eq hcap (hread ▸ inv.room), hread]

/-- What a step, or a run, does to the pending packets: those it accepts come behind, those it returns
were in front, and it returns nothing only when none was left. -/
structure Delivers (pending : List Packet) (events : List Event) (pending' : List Packet) : Prop where
  order : pending ++ accepted events = returned events ++ pending'
  drained : ∀ before after, events = before ++ .nothing :: after →
    pending ++ accepted before = returned before

theorem Delivers.silent (pending : List Packet) : Delivers pending [] pending where
  order := by simp [accepted, returned]
  drained := by
    intro before after h
    simp at h

theorem Delivers.refused (pending : List Packet) (packet : Packet) :
    Delivers pending [.refused packet] pending where
  order := by simp [accepted, returned]
  drained := by
    intro before after h
    cases before with
    | nil => simp at h
    | cons => simp at h

theorem Delivers.accepted (pending : List Packet) (packet : Packet) :
    Delivers pending [.accepted packet] (pending ++ [packet]) where
  order := by simp [TokenShm.accepted, returned]
  drained := by
    intro before after h
    cases before with
    | nil => simp at h
    | cons => simp at h

theorem Delivers.returned (packet : Packet) (rest : List Packet) :
    Delivers (packet :: rest) [.returned packet] rest where
  order := by simp [TokenShm.accepted, TokenShm.returned]
  drained := by
    intro before after h
    cases before with
    | nil => simp at h
    | cons => simp at h

theorem Delivers.nothing : Delivers [] [.nothing] [] where
  order := by simp [TokenShm.accepted, TokenShm.returned]
  drained := by
    intro before after h
    cases before with
    | nil => rfl
    | cons => simp at h

theorem accepted_append (events more : List Event) :
    accepted (events ++ more) = accepted events ++ accepted more := by simp [accepted]

theorem returned_append (events more : List Event) :
    returned (events ++ more) = returned events ++ returned more := by simp [returned]

/-- One after the other. -/
theorem Delivers.trans {pending' pending'' : List Packet} {events more : List Event}
    (h : Delivers pending events pending') (h' : Delivers pending' more pending'') :
    Delivers pending (events ++ more) pending'' where
  order := by
    rw [accepted_append, returned_append, ← append_assoc, h.order, append_assoc,
      h'.order, append_assoc]
  drained := by
    intro before after heq
    rcases append_eq_append_iff.mp heq with ⟨middle, rfl, hmore⟩ | ⟨middle, hevents, hmiddle⟩
    · rw [accepted_append, returned_append, ← append_assoc, h.order, append_assoc,
        h'.drained middle after hmore]
    · cases middle with
      | nil =>
        rw [append_nil] at hevents
        subst hevents
        have hfirst := h'.drained [] after hmiddle.symm
        simp only [TokenShm.accepted, filterMap_nil, append_nil, TokenShm.returned] at hfirst
        rw [h.order, hfirst, append_nil]
      | cons event middle =>
        obtain ⟨rfl⟩ := List.cons.inj hmiddle
        exact h.drained before middle hevents

section Steps

variable {cap : Nat} {s s' : State} {pending : List Packet} {unread : List UInt8}
variable {events : List Event}
variable {packet : Packet} {phase : Phase} {got : List UInt8}

/-- What one step comes to. -/
def Stepped (cap : Nat) (s : State) (pending : List Packet) (s' : State) (events : List Event) : Prop :=
  ∃ pending' unread', Invariant cap s' pending' unread' ∧ Delivers pending events pending' ∧
    s'.writePos = s.writePos + bytesWritten events

/-- A step without an event that changes neither the positions nor what is unread. -/
theorem Invariant.stepped (inv : Invariant cap s' pending unread) (h : s'.writePos = s.writePos) :
    Stepped cap s pending s' [] :=
  ⟨pending, unread, inv, Delivers.silent pending, by simp [h, bytesWritten, accepted]⟩

theorem beginWrite_stepped (hcap : cap < 2 ^ 64) (inv : Invariant cap s pending unread)
    (call : WriteCall) :
    Stepped cap s pending (beginWrite cap s call).1 (beginWrite cap s call).2 := by
  have hrefused (packet : Packet) : Stepped cap s pending s [.refused packet] :=
    ⟨pending, unread, inv, Delivers.refused pending packet, by simp [bytesWritten, accepted]⟩
  simp only [beginWrite]
  split
  · exact inv.stepped rfl
  · rename_i packet _
    split
    · exact hrefused packet
    · split
      · exact hrefused packet
      · rename_i hroom
        rw [inv.availableToWrite hcap] at hroom
        have hunread := inv.room
        have hbegun : Invariant cap { s with producer := .copying packet 0 } pending unread :=
          { inv with
            writes := ⟨by omega, Nat.zero_le _, by omega, by simpa using Ring.holds_nil _ _ _⟩ }
        exact hbegun.stepped rfl

/-- The bytes that come into the ring stand behind the unread ones. -/
theorem copyIn_stepped (inv : Invariant cap s pending unread) {done : Nat}
    (hproducer : s.producer = .copying packet done) (h : copyIn cap s packet done = some s') :
    Stepped cap s pending s' [] := by
  have hwrites := inv.writes
  rw [hproducer] at hwrites
  obtain ⟨hsize, -, hroom, htaken⟩ := hwrites
  obtain ⟨b, hb, rfl⟩ := map_eq_some_iff.mp h
  have hdone : done < (frame packet).length := (List.getElem?_eq_some_iff.mp hb).1
  have hslot : Ring.copyIndex cap (s.writePos % cap) (frame packet).length done =
      (s.writePos + done) % cap := Ring.copyIndex_eq (by omega) (by omega) hdone
  have hpositions := inv.positions
  have hlength : ((frame packet).take done).length = done := by
    rw [length_take]
    omega
  have hnext := htaken.snoc (by omega) b
  rw [hlength] at hnext
  refine Invariant.stepped ⟨inv.sized, hpositions, inv.bound, inv.room, ?_, inv.reads, ?_⟩ rfl
  · simp only [hslot]
    exact inv.holds.update (by omega) (by omega) b
  · simp only [hslot]
    refine ⟨hsize, hdone, hroom, ?_⟩
    rw [take_add_one, hb]
    exact hnext

/-- The whole frame comes to be unread at once. -/
theorem storeWritePos_stepped (inv : Invariant cap s pending unread)
    (hproducer : s.producer = .copying packet (frame packet).length)
    (hbytes : s.writePos + (frame packet).length < 2 ^ 64) :
    Stepped cap s pending
      { s with
        writePos := (s.writePos + (frame packet).length) % 2 ^ 64
        producer := .idle } [.accepted packet] := by
  have hwrites := inv.writes
  rw [hproducer] at hwrites
  obtain ⟨hsize, -, hroom, htaken⟩ := hwrites
  rw [take_length, ← inv.positions] at htaken
  have hpositions := inv.positions
  rw [Nat.mod_eq_of_lt hbytes]
  refine ⟨pending ++ [packet], unread ++ frame packet, ?_, Delivers.accepted pending packet, ?_⟩
  · refine ⟨?_, ?_, ?_, ?_, Ring.holds_append.mpr ⟨inv.holds, htaken⟩, ?_, trivial⟩
    · intro other hother
      rcases mem_append.mp hother with hold | hnew
      · exact inv.sized other hold
      · rw [mem_singleton.mp hnew]
        exact hsize
    · simp only [length_append]
      omega
    · exact hbytes
    · rw [length_append]
      exact hroom
    · have hreads := inv.reads
      cases hconsumer : s.consumer with
      | idle =>
        rw [hconsumer] at hreads
        have hahead : Ahead .header pending unread := hreads
        exact hahead.append packet
      | readExact phase got =>
        rw [hconsumer] at hreads
        exact ⟨hreads.1, hreads.2.append packet⟩
      | copying phase got count out =>
        rw [hconsumer] at hreads
        obtain ⟨hgot, hahead, hcount, hbytes, hout, htake⟩ := hreads
        refine ⟨hgot, hahead.append packet, hcount, ?_, hout, ?_⟩
        · rw [length_append]
          omega
        · rw [take_append_of_le_length (by omega)]
          exact htake
  · simp [bytesWritten, accepted]

theorem readNextPacket_stepped (inv : Invariant cap s pending unread)
    (hconsumer : s.consumer = .idle) :
    Stepped cap s pending { s with consumer := .readExact .header [] } [] := by
  have hreads := inv.reads
  rw [hconsumer] at hreads
  refine Invariant.stepped ⟨inv.sized, inv.positions, inv.bound, inv.room, inv.holds, ?_,
    inv.writes⟩ rfl
  exact ⟨rfl, hreads⟩

theorem loadWritePos_stepped (inv : Invariant cap s pending unread)
    (hconsumer : s.consumer = .readExact phase got) :
    Stepped cap s pending (loadWritePos s phase got).1 (loadWritePos s phase got).2 := by
  have hreads := inv.reads
  rw [hconsumer] at hreads
  obtain ⟨rfl, hahead⟩ := hreads
  simp only [loadWritePos, inv.availableToRead]
  split
  · rename_i hempty
    obtain rfl := eq_nil_of_length_eq_zero hempty
    obtain rfl := hahead.nil
    refine ⟨[], [], ?_, Delivers.nothing, by simp [bytesWritten, accepted]⟩
    exact ⟨inv.sized, inv.positions, inv.bound, inv.room, inv.holds, rfl, inv.writes⟩
  · rename_i hsome
    have hbytes := hahead.bytes_le fun h => hsome (by simp [h])
    refine Invariant.stepped ⟨inv.sized, inv.positions, inv.bound, inv.room, inv.holds, ?_,
      inv.writes⟩ rfl
    refine ⟨rfl, hahead, ?_, hbytes, Nat.zero_le _, rfl⟩
    rw [length_nil, Nat.sub_zero, Nat.min_eq_left hbytes]

theorem copyOut_stepped (inv : Invariant cap s pending unread) {out : List UInt8} {count : Nat}
    (hconsumer : s.consumer = .copying phase got count out) (hlt : out.length < count) :
    Stepped cap s pending
      { s with
        consumer := .copying phase got count
          (out ++ [s.slots (Ring.copyIndex cap (s.readPos % cap) count out.length)]) } [] := by
  have hreads := inv.reads
  have hroom := inv.room
  rw [hconsumer] at hreads
  obtain ⟨hgot, hahead, hcount, hbytes, -, htake⟩ := hreads
  have hunread : out.length < unread.length := by omega
  have hslot : s.slots ((s.readPos + out.length) % cap) = unread[out.length] :=
    inv.holds out.length _ (List.getElem?_eq_getElem hunread)
  refine Invariant.stepped ⟨inv.sized, inv.positions, inv.bound, inv.room, inv.holds, ?_,
    inv.writes⟩ rfl
  refine ⟨hgot, hahead, hcount, hbytes, ?_, ?_⟩
  · rw [length_append]
    exact hlt
  · rw [Ring.copyIndex_eq (by omega) (by omega) hlt, hslot, length_append,
      length_singleton, take_succ_eq_append_getElem hunread, ← htake]

/-- A header read whole: its packet is returned if it has no payload, and else the payload is next. -/
theorem finish_header (rest : List Packet) (hsize : packet.payload.length < 2 ^ 32) :
    ∃ pending', Delivers (packet :: rest) (finish .header (header packet)).2 pending' ∧
      bytesWritten (finish .header (header packet)).2 = 0 ∧
      (∀ other ∈ pending', other ∈ packet :: rest) ∧
      Reads (finish .header (header packet)).1 pending' (packet.payload ++ rest.flatMap frame) := by
  obtain ⟨type, payload⟩ := packet
  simp only [finish, parseHeader_header hsize]
  cases payload with
  | nil =>
    refine ⟨rest, Delivers.returned _ rest, rfl, ?_, rfl⟩
    intro other hother
    exact mem_cons_of_mem _ hother
  | cons b payload =>
    refine ⟨_, Delivers.silent _, rfl, fun _ hother => hother, rfl, _, rest, rfl, rfl, rfl, ?_, rfl⟩
    exact Nat.succ_pos _

theorem storeReadPos_stepped (inv : Invariant cap s pending unread) {out : List UInt8} {count : Nat}
    (hconsumer : s.consumer = .copying phase got count out) (hcount : out.length = count) :
    Stepped cap s pending (storeReadPos s phase got count out).1
      (storeReadPos s phase got count out).2 := by
  have hreads := inv.reads
  rw [hconsumer] at hreads
  obtain ⟨rfl, hahead, rfl, hbytes, -, htake⟩ := hreads
  have hpositions := inv.positions
  have hbound := inv.bound
  have hroom := inv.room
  have hsplit : unread = out ++ unread.drop out.length := by
    conv_lhs => rw [← take_append_drop out.length unread, ← htake]
  have hholds := inv.holds
  rw [hsplit] at hholds
  have hafter := (Ring.holds_append.mp hholds).2
  have hdrop : (unread.drop out.length).length = unread.length - out.length := length_drop
  -- all that remains to say is how the consumer and the pending packets go on
  have hgo (pending' : List Packet) (consumer : Consumer) (events : List Event)
      (hdelivers : Delivers pending events pending') (hzero : bytesWritten events = 0)
      (hmem : ∀ other ∈ pending', other ∈ pending)
      (hreads : Reads consumer pending' (unread.drop out.length)) :
      Stepped cap s pending
        { s with
          readPos := (s.readPos + phase.bytes) % 2 ^ 64
          consumer := consumer } events := by
    rw [Nat.mod_eq_of_lt (by omega), ← hcount]
    refine ⟨pending', unread.drop out.length, ?_, hdelivers, by simp [hzero]⟩
    refine ⟨fun other hother => inv.sized other (hmem other hother), ?_, hbound, by omega, hafter,
      hreads, ?_⟩
    · simp only
      omega
    · have hwrites := inv.writes
      cases hproducer : s.producer with
      | idle => trivial
      | copying packet done =>
        rw [hproducer] at hwrites
        obtain ⟨hsize, hdone, hfits, htaken⟩ := hwrites
        exact ⟨hsize, hdone, by omega, htaken⟩
  simp only [storeReadPos, nil_append, hcount, lt_irrefl]
  cases phase with
  | header =>
    obtain rfl : unread = pending.flatMap frame := hahead
    cases pending with
    | nil => simp [Phase.bytes, headerSize] at hbytes
    | cons packet rest =>
      have hlength : out.length = (header packet).length := by
        rw [hcount]
        rfl
      have hout : out = header packet := by
        rw [htake, flatMap_cons, frame, append_assoc, hlength, take_left]
      have hrest : ((packet :: rest).flatMap frame).drop out.length =
          packet.payload ++ rest.flatMap frame := by
        rw [flatMap_cons, frame, append_assoc, hlength, drop_left]
      have hsized := inv.sized packet mem_cons_self
      obtain ⟨pending', hdelivers, hzero, hmem, hreads⟩ := finish_header rest hsized
      rw [← hout] at hdelivers hzero hreads
      exact hgo pending' _ _ hdelivers hzero hmem (hrest ▸ hreads)
  | payload type payloadBytes =>
    obtain ⟨packet, rest, rfl, rfl, rfl, -, rfl⟩ := hahead
    have hlength : out.length = packet.payload.length := hcount
    have hout : out = packet.payload := by rw [htake, hlength, take_left]
    have hrest : (packet.payload ++ rest.flatMap frame).drop out.length = rest.flatMap frame := by
      rw [hlength, drop_left]
    refine hgo rest _ _ ?_ rfl (fun _ hother => mem_cons_of_mem _ hother) hrest
    simp only [hout]
    exact Delivers.returned packet rest

theorem step_stepped (hcap : cap < 2 ^ 64) (inv : Invariant cap s pending unread) {action : Action}
    (h : step cap s action = some (s', events)) (hbytes : s.writePos + bytesWritten events < 2 ^ 64) :
    Stepped cap s pending s' events := by
  cases action with
  | write call =>
    cases hproducer : s.producer with
    | idle =>
      simp only [step, hproducer, Option.some.injEq] at h
      simpa [h] using beginWrite_stepped hcap inv call
    | copying packet done => simp [step, hproducer] at h
  | copyIn =>
    cases hproducer : s.producer with
    | idle => simp [step, hproducer] at h
    | copying packet done =>
      simp only [step, hproducer, map_eq_some_iff] at h
      obtain ⟨s'', hcopy, rfl, rfl⟩ := h
      exact copyIn_stepped inv hproducer hcopy
  | storeWritePos =>
    cases hproducer : s.producer with
    | idle => simp [step, hproducer] at h
    | copying packet done =>
      simp only [step, hproducer, ite_none_right_eq_some] at h
      obtain ⟨rfl, rfl, rfl⟩ := h
      refine storeWritePos_stepped inv hproducer ?_
      simpa [bytesWritten, accepted] using hbytes
  | readNextPacket =>
    cases hconsumer : s.consumer with
    | idle =>
      simp only [step, hconsumer] at h
      obtain ⟨rfl⟩ := h
      exact readNextPacket_stepped inv hconsumer
    | readExact => simp [step, hconsumer] at h
    | copying => simp [step, hconsumer] at h
  | loadWritePos =>
    cases hconsumer : s.consumer with
    | idle => simp [step, hconsumer] at h
    | readExact phase got =>
      simp only [step, hconsumer, Option.some.injEq] at h
      simpa [h] using loadWritePos_stepped inv hconsumer
    | copying => simp [step, hconsumer] at h
  | copyOut =>
    cases hconsumer : s.consumer with
    | idle => simp [step, hconsumer] at h
    | readExact => simp [step, hconsumer] at h
    | copying phase got count out =>
      simp only [step, hconsumer, ite_none_right_eq_some] at h
      obtain ⟨hlt, rfl, rfl⟩ := h
      exact copyOut_stepped inv hconsumer hlt
  | storeReadPos =>
    cases hconsumer : s.consumer with
    | idle => simp [step, hconsumer] at h
    | readExact => simp [step, hconsumer] at h
    | copying phase got count out =>
      simp only [step, hconsumer, ite_none_right_eq_some, Option.some.injEq] at h
      obtain ⟨hcount, h⟩ := h
      simpa [h] using storeReadPos_stepped inv hconsumer hcount

end Steps

theorem bytesWritten_append (events more : List Event) :
    bytesWritten (events ++ more) = bytesWritten events + bytesWritten more := by
  simp [bytesWritten, accepted_append]

theorem run_delivers (hcap : cap < 2 ^ 64) {s' : State} (inv : Invariant cap s pending unread)
    {actions : List Action} {events : List Event} (h : run cap s actions = some (s', events))
    (hbytes : s.writePos + bytesWritten events < 2 ^ 64) :
    ∃ pending', Delivers pending events pending' := by
  induction actions generalizing s pending unread events with
  | nil =>
    obtain ⟨-⟩ := h
    exact ⟨pending, Delivers.silent pending⟩
  | cons action actions ih =>
    simp only [run, bind_eq_bind, bind_eq_some_iff, Prod.exists] at h
    obtain ⟨s₁, first, hstep, s₂, more, hrun, rfl, rfl⟩ := h
    rw [bytesWritten_append] at hbytes
    obtain ⟨pending₁, unread₁, inv₁, hfirst, hwritePos⟩ :=
      step_stepped hcap inv hstep (by omega)
    obtain ⟨pending₂, hmore⟩ := ih inv₁ hrun (by omega)
    exact ⟨pending₂, hfirst.trans hmore⟩

/-- In every interleaving the consumer gets a beginning of the packets accepted, whole and in order,
and it gets nothing only when it has had all of them. -/
theorem run_exactly_once (cap : UInt32) (slots : Nat → UInt8) (actions : List Action) (s : State)
    (events : List Event) (h : run cap.toNat (attached slots) actions = some (s, events))
    (hbytes : bytesWritten events < 2 ^ 64) :
    returned events <+: accepted events ∧
    ∀ before after, events = before ++ .nothing :: after → returned before = accepted before := by
  have hcap : cap.toNat < 2 ^ 64 := lt_trans cap.toNat_lt (by decide)
  have hwritten : (attached slots).writePos + bytesWritten events < 2 ^ 64 := by
    simpa [attached] using hbytes
  obtain ⟨pending, hdelivers⟩ := run_delivers hcap (attached_invariant cap.toNat slots) h hwritten
  constructor
  · exact ⟨pending, hdelivers.order.symm⟩
  · intro before after heq
    exact (hdelivers.drained before after heq).symm

/-- The steps of a write of `n` bytes, and of the reading of `n` bytes. -/
def writeActions (call : WriteCall) (n : Nat) : List Action :=
  .write call :: List.replicate n .copyIn ++ [.storeWritePos]

def readActions (n : Nat) : List Action :=
  .loadWritePos :: List.replicate n .copyOut ++ [.storeReadPos]

/-- A text of two bytes, and a heartbeat that is written between the text's header and its payload. -/
def wrappedActions : List Action :=
  writeActions (.writeText [7, 9]) 10 ++ .readNextPacket :: readActions 8 ++
    writeActions .writeHeartbeat 8 ++ readActions 2 ++ .readNextPacket :: readActions 8 ++
    [.readNextPacket, .loadWritePos]

/-- In a ring of twelve bytes the heartbeat goes round the end. -/
theorem run_exactly_once_wrapped :
    ∃ s events, run (UInt32.toNat 12) (attached fun _ => 0) wrappedActions = some (s, events) ∧
      returned events = [⟨.Text, [7, 9]⟩, ⟨.Heartbeat, []⟩] ∧
      returned events <+: accepted events ∧
      ∀ before after, events = before ++ .nothing :: after → returned before = accepted before := by
  have hevents : (run (UInt32.toNat 12) (attached fun _ => 0) wrappedActions).map Prod.snd =
      some [.accepted ⟨.Text, [7, 9]⟩, .accepted ⟨.Heartbeat, []⟩, .returned ⟨.Text, [7, 9]⟩,
        .returned ⟨.Heartbeat, []⟩, .nothing] := by
    decide +kernel
  obtain ⟨⟨s, events⟩, hrun, rfl⟩ := map_eq_some_iff.mp hevents
  exact ⟨s, _, hrun, by decide, run_exactly_once 12 _ _ _ _ hrun (by decide)⟩

end TokenShm

end JobTokenizer
