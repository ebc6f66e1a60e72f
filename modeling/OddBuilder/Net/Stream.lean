import OddBuilder.Library.StreamReader
import OddBuilder.Net.Parser

/-!
# The response parser byte by byte

The same parser as a machine that reads one byte at a time: a line is gathered in
the buffer until CR LF ends it, a body byte goes where the body goes. Every state
it can be in is settled: a body state still waits for bytes, and the buffer has
room.
-/

namespace JobNet

open JobHttpHeader List

namespace JobHttpParser.Core

variable {p p' : Core} {data line buffer : Bytes} {i : Nat} {a value : UInt8}

@[simp]
theorem setError_state (p : Core) (error : String) : (p.setError error).state = .Error := rfl

/-- A parsing function returns false exactly when it has set an error. -/
def Reports (r : Bool × Core) : Prop := r.1 = false → r.2.state = .Error

@[simp]
theorem reports_fail (p : Core) (error : String) : Reports (p.fail error) := fun _ => rfl

@[simp]
theorem reports_true (p : Core) : Reports (true, p) := by
  rintro ⟨⟩

theorem parseStatusCode_reports (p : Core) (line : Bytes) : Reports (p.parseStatusCode line) := by
  unfold parseStatusCode
  repeat' split
  all_goals simp

theorem parseStatusLine_reports (p : Core) (line : Bytes) : Reports (p.parseStatusLine line) := by
  unfold parseStatusLine
  simp only
  repeat' split
  all_goals first
    | exact reports_fail _ _
    | exact parseStatusCode_reports _ _

theorem parseHeaderLine_reports (p : Core) (line : Bytes) : Reports (p.parseHeaderLine line) := by
  unfold parseHeaderLine
  split <;> simp

theorem parseTrailerLine_reports (p : Core) (line : Bytes) : Reports (p.parseTrailerLine line) := by
  unfold parseTrailerLine
  split
  · simp
  · split <;> simp

theorem parseContentLength_reports (p : Core) : Reports p.parseContentLength := by
  unfold parseContentLength
  split
  · simp
  · split <;> simp

theorem parseTransferEncoding_reports (p : Core) : Reports p.parseTransferEncoding := by
  unfold parseTransferEncoding
  split
  · simp
  · split <;> simp

theorem bodyHeadersComplete_reports (p : Core) : Reports p.bodyHeadersComplete := by
  unfold bodyHeadersComplete
  split
  · have h := parseTransferEncoding_reports p
    split
    · rename_i q hq
      rw [hq] at h
      exact h
    · split <;> simp
  · split <;> simp

theorem frameMessage_reports (p : Core) : Reports p.frameMessage := by
  unfold frameMessage
  repeat' split
  all_goals first
    | exact reports_true _
    | exact bodyHeadersComplete_reports p

theorem parseHeadersComplete_reports (p : Core) : Reports p.parseHeadersComplete := by
  unfold parseHeadersComplete
  simp only
  split
  · split
    · rename_i q hq
      have h := parseContentLength_reports
        { p with hasContentLength := p.response.headers.contains contentLengthName }
      rw [hq] at h
      exact h
    · exact frameMessage_reports _
  · exact frameMessage_reports _

theorem parseChunkSize_reports (p : Core) (line : Bytes) : Reports (p.parseChunkSize line) := by
  unfold parseChunkSize
  split
  · simp
  · split <;> simp

theorem handleLine_reports (p : Core) (line : Bytes) : Reports (p.handleLine line) := by
  unfold handleLine
  split
  · have h := parseStatusLine_reports p line
    split
    · rename_i q hq
      rw [hq] at h
      exact h
    · simp
  · split
    · exact parseHeaderLine_reports p line
    · exact parseHeadersComplete_reports p
  · have h := parseChunkSize_reports p line
    split
    · rename_i q hq
      rw [hq] at h
      exact h
    · simp
  · split <;> simp
  · split
    · simp
    · exact parseTrailerLine_reports p line
  · simp

theorem parseStatusCode_ok (h : p.parseStatusCode line = (true, p')) :
    ∃ code reasonPhrase, 100 ≤ code ∧ code ≤ 999 ∧
      p' = { p with
        response := { p.response with code := code, reasonPhrase := reasonPhrase } } := by
  unfold parseStatusCode at h
  split at h
  · simp [fail] at h
  · split at h
    · simp [fail] at h
    · split at h
      · simp [fail] at h
      · rename_i code _
        split at h
        · simp [fail] at h
        · split at h
          · exact ⟨code, [], by omega, by omega, (Prod.mk.inj h).2.symm⟩
          · rename_i c reasonPhrase _
            split at h
            · simp [fail] at h
            · split at h
              · simp [fail] at h
              · exact ⟨code, reasonPhrase, by omega, by omega, (Prod.mk.inj h).2.symm⟩

theorem parseStatusLine_ok (h : p.parseStatusLine line = (true, p')) :
    ∃ minor code reasonPhrase, 100 ≤ code ∧ code ≤ 999 ∧
      p' = { p with
        httpMajor := 1
        httpMinor := minor
        response := { p.response with code := code, reasonPhrase := reasonPhrase } } := by
  unfold parseStatusLine at h
  simp only at h
  repeat' split at h
  all_goals first
    | simp [fail] at h; done
    | skip
  rename_i major _ _ minor _ hversion
  obtain ⟨code, reasonPhrase, hlow, hhigh, rfl⟩ := parseStatusCode_ok h
  obtain rfl : major = 1 := by omega
  exact ⟨minor, code, reasonPhrase, hlow, hhigh, rfl⟩

theorem parseHeaderLine_ok (h : p.parseHeaderLine line = (true, p')) :
    ∃ headers, p' = { p with response := { p.response with headers := headers } } := by
  unfold parseHeaderLine at h
  split at h
  · simp [fail] at h
  · exact ⟨_, (Prod.mk.inj h).2.symm⟩

theorem parseTrailerLine_ok (h : p.parseTrailerLine line = (true, p')) :
    ∃ trailers, p' = { p with response := { p.response with trailers := trailers } } := by
  unfold parseTrailerLine at h
  split at h
  · simp [fail] at h
  · split at h
    · simp [fail] at h
    · exact ⟨_, (Prod.mk.inj h).2.symm⟩

theorem parseChunkSize_ok (h : p.parseChunkSize line = (true, p')) :
    ∃ chunkSize, fromChars 16 maxSize (sizeTextOf line) = some chunkSize ∧
      p' = { p with chunkBytesRemaining := chunkSize } := by
  unfold parseChunkSize at h
  split at h
  · simp [fail] at h
  · split at h
    · simp [fail] at h
    · exact ⟨_, ‹_›, (Prod.mk.inj h).2.symm⟩

theorem parseContentLength_ok (h : p.parseContentLength = (true, p')) :
    ∃ parsedLength,
      commonLength none (p.response.headers.listMembers contentLengthName) = .ok parsedLength ∧
      p.response.headers.listMembers contentLengthName ≠ [] ∧
      p' = { p with contentLength := parsedLength.getD 0 } := by
  unfold parseContentLength at h
  split at h
  · simp [fail] at h
  · split at h
    · simp [fail] at h
    · exact ⟨_, ‹_›, ‹_›, (Prod.mk.inj h).2.symm⟩

theorem parseTransferEncoding_ok (h : p.parseTransferEncoding = (true, p')) :
    ∃ sawChunked,
      finalChunked false (p.response.headers.listMembers transferEncodingName) = .ok sawChunked ∧
      p.response.headers.listMembers transferEncodingName ≠ [] ∧
      p' = { p with bodyFraming := if sawChunked then .Chunked else .CloseDelimited } := by
  unfold parseTransferEncoding at h
  split at h
  · simp [fail] at h
  · split at h
    · simp [fail] at h
    · exact ⟨_, ‹_›, ‹_›, (Prod.mk.inj h).2.symm⟩

/-- The ways in which a message that may have a body is framed. -/
theorem bodyHeadersComplete_ok (h : p.bodyHeadersComplete = (true, p')) :
    (p.response.headers.contains transferEncodingName = true ∧ p.hasContentLength = false ∧
      p.response.headers.listMembers transferEncodingName ≠ [] ∧
      ((finalChunked false (p.response.headers.listMembers transferEncodingName) = .ok true ∧
          p' = { p with bodyFraming := .Chunked, state := .ChunkSize }) ∨
        (finalChunked false (p.response.headers.listMembers transferEncodingName) = .ok false ∧
          p' = { p with bodyFraming := .CloseDelimited, state := .Body }))) ∨
    (p.response.headers.contains transferEncodingName = false ∧ p.hasContentLength = true ∧
      p' = { p with
        bodyFraming := .ContentLength
        state := if p.contentLength = 0 then .Complete else .Body }) ∨
    (p.response.headers.contains transferEncodingName = false ∧ p.hasContentLength = false ∧
      p' = { p with bodyFraming := .CloseDelimited, state := .Body }) := by
  unfold bodyHeadersComplete at h
  split at h
  · rename_i hte
    left
    split at h
    · simp at h
    · rename_i q hq
      obtain ⟨sawChunked, hsaw, hne, rfl⟩ := parseTransferEncoding_ok hq
      cases hlength : p.hasContentLength with
      | true => simp [fail, hlength] at h
      | false =>
        refine ⟨hte, rfl, hne, ?_⟩
        cases sawChunked with
        | true => exact Or.inl ⟨hsaw, by simpa [hlength] using h.symm⟩
        | false => exact Or.inr ⟨hsaw, by simpa [hlength] using h.symm⟩
  · rename_i hte
    right
    have hte : p.response.headers.contains transferEncodingName = false := by simpa using hte
    split at h
    · exact Or.inl ⟨hte, ‹_›, (Prod.mk.inj h).2.symm⟩
    · rename_i hlength
      exact Or.inr ⟨hte, by simpa using hlength, (Prod.mk.inj h).2.symm⟩

/-- A response that never has a body, whatever its fields say. -/
def Bodyless (p : Core) : Prop :=
  (100 ≤ p.response.code ∧ p.response.code < 200) ∨ p.requestMethod = .Head ∨
    (p.requestMethod = .Connect ∧ 200 ≤ p.response.code ∧ p.response.code < 300) ∨
    p.response.code = 204 ∨ p.response.code = 304

/-- The ways in which a header section is completed. -/
inductive Framed (p : Core) : Core → Prop
  | interim (hcode : 100 ≤ p.response.code ∧ p.response.code < 200) (h101 : p.response.code ≠ 101) :
      Framed p p.resetMessage
  | tunnel
      (h : p.response.code = 101 ∨
        (p.requestMethod = .Connect ∧ 200 ≤ p.response.code ∧ p.response.code < 300)) :
      Framed p { p with bodyFraming := .Tunnel, state := .Complete }
  | none
      (h : p.requestMethod = .Head ∨
        (p.requestMethod ≠ .Connect ∧ p.response.code = 204) ∨ p.response.code = 304)
      (hcode : ¬ (100 ≤ p.response.code ∧ p.response.code < 200)) :
      Framed p { p with bodyFraming := .None, state := .Complete }
  | body {p' : Core} (hp : ¬ p.Bodyless) (h : p.bodyHeadersComplete = (true, p')) : Framed p p'

theorem frameMessage_ok (h : p.frameMessage = (true, p')) : p.Framed p' := by
  unfold frameMessage at h
  split at h
  · split at h
    · obtain rfl := (Prod.mk.inj h).2
      exact .tunnel (Or.inl ‹_›)
    · obtain rfl := (Prod.mk.inj h).2
      exact .interim ‹_› ‹_›
  · split at h
    · obtain rfl := (Prod.mk.inj h).2
      exact .none (Or.inl ‹_›) ‹_›
    · split at h
      · obtain rfl := (Prod.mk.inj h).2
        exact .tunnel (Or.inr ‹_›)
      · rename_i hinterim hhead hconnect
        split at h
        · obtain rfl := (Prod.mk.inj h).2
          refine .none ?_ hinterim
          rename_i hcode
          rcases hcode with hcode | hcode
          · refine Or.inr (Or.inl ⟨fun hmethod => hconnect ⟨hmethod, ?_⟩, hcode⟩)
            omega
          · exact Or.inr (Or.inr hcode)
        · rename_i hcode
          refine .body ?_ h
          rintro (h1 | h2 | h3 | h4)
          · exact hinterim h1
          · exact hhead h2
          · exact hconnect h3
          · exact hcode h4

/-- The bytes go where the body goes. -/
def takeBody (p : Core) (data : Bytes) : Core :=
  { p with
    response :=
      if p.bodyMode = .Store then { p.response with body := p.response.body ++ data } else p.response
    streamed := if p.bodyMode = .Stream then p.streamed ++ data else p.streamed
    bodyBytesReceived := p.bodyBytesReceived + data.length }

/-- A body can be received: in stream mode only through a callback. -/
def CanReceive (p : Core) : Prop := p.bodyMode = .Stream → p.bodyCallback = true

def noCallback : String := "HTTP body stream mode requires a callback"

theorem consumeBody_eq (h : p.CanReceive) (hdata : data ≠ []) :
    p.consumeBody data = (true, p.takeBody data) := by
  unfold consumeBody takeBody
  rw [if_neg hdata]
  cases hmode : p.bodyMode with
  | Store => simp
  | Stream => simp [h hmode]
  | Discard => simp

theorem consumeBody_refused (h : ¬ p.CanReceive) (hdata : data ≠ []) :
    p.consumeBody data = (false, p.setError noCallback) := by
  obtain ⟨hmode, hcallback⟩ : p.bodyMode = .Stream ∧ p.bodyCallback = false := by
    simpa [CanReceive] using h
  simp [consumeBody, hdata, hmode, hcallback, fail, noCallback]

@[simp]
theorem takeBody_state (p : Core) (data : Bytes) : (p.takeBody data).state = p.state := rfl

@[simp]
theorem takeBody_bodyFraming (p : Core) (data : Bytes) :
    (p.takeBody data).bodyFraming = p.bodyFraming := rfl

@[simp]
theorem takeBody_bodyBytesReceived (p : Core) (data : Bytes) :
    (p.takeBody data).bodyBytesReceived = p.bodyBytesReceived + data.length := rfl

@[simp]
theorem takeBody_contentLength (p : Core) (data : Bytes) :
    (p.takeBody data).contentLength = p.contentLength := rfl

@[simp]
theorem takeBody_chunkBytesRemaining (p : Core) (data : Bytes) :
    (p.takeBody data).chunkBytesRemaining = p.chunkBytesRemaining := rfl

theorem takeBody_append (p : Core) (front data : Bytes) :
    (p.takeBody front).takeBody data = p.takeBody (front ++ data) := by
  cases hmode : p.bodyMode <;> simp [takeBody, hmode, Nat.add_assoc]

/-- After body bytes the message is complete if its length is reached. -/
def afterContent (p : Core) : Core :=
  { p with state := if p.bodyBytesReceived = p.contentLength then .Complete else p.state }

/-- After `n` bytes of a chunk its end is next if no byte of it remains. -/
def afterChunk (p : Core) (n : Nat) : Core :=
  { p with
    chunkBytesRemaining := p.chunkBytesRemaining - n
    state := if p.chunkBytesRemaining - n = 0 then .ChunkDataEnd else p.state }

def setRemaining (p : Core) (n : Nat) : Core := { p with chunkBytesRemaining := n }

theorem afterChunk_of_lt {n : Nat} (h : n < p.chunkBytesRemaining) :
    p.afterChunk n = p.setRemaining (p.chunkBytesRemaining - n) := by
  have hne : p.chunkBytesRemaining - n ≠ 0 := by omega
  simp [afterChunk, setRemaining, if_neg hne]

theorem afterChunk_add (p : Core) (data : Bytes) (n k : Nat) :
    (p.takeBody data).afterChunk (n + k) =
      ((p.setRemaining (p.chunkBytesRemaining - n)).takeBody data).afterChunk k := by
  have hleft : p.chunkBytesRemaining - (n + k) = p.chunkBytesRemaining - n - k := by omega
  simp only [afterChunk, takeBody_chunkBytesRemaining, hleft]
  rfl

def feedLine (p : Core) (value : UInt8) : Core :=
  let buffer := p.lineBuffer ++ [value]
  if endsLine buffer then
    (({ p with lineBuffer := [] } : Core).handleLine (buffer.take (buffer.length - 2))).2
  else if buffer.length = kLineBufferSize then
    ({ p with lineBuffer := buffer } : Core).setError lineTooLong
  else { p with lineBuffer := buffer }

def feedBody (p : Core) (value : UInt8) : Core :=
  match p.consumeBody [value] with
  | (false, p) => p
  | (true, p) =>
    match p.state, p.bodyFraming with
    | .ChunkData, _ => p.afterChunk 1
    | _, .ContentLength => p.afterContent
    | _, _ => p

def feed (p : Core) (value : UInt8) : Core :=
  match p.state with
  | .Complete | .Error => p
  | .Body | .ChunkData => p.feedBody value
  | .StatusLine | .Headers | .ChunkSize | .ChunkDataEnd | .Trailers => p.feedLine value

def isFinal (p : Core) : Bool := p.state = .Complete || p.state = .Error

/-- The parser as a reader of single bytes. -/
def reader : StreamReader Core UInt8 := ⟨feed, isFinal⟩

/-- A state that reads lines. -/
def ReadsLines (p : Core) : Prop :=
  p.state = .StatusLine ∨ p.state = .Headers ∨ p.state = .ChunkSize ∨ p.state = .ChunkDataEnd ∨
    p.state = .Trailers

theorem ReadsLines.not_final (h : p.ReadsLines) : reader.final p = false := by
  rcases h with h | h | h | h | h <;> simp [reader, isFinal, h]

theorem ReadsLines.feed (h : p.ReadsLines) (value : UInt8) : p.feed value = p.feedLine value := by
  rcases h with h | h | h | h | h <;> simp [Core.feed, h]

theorem ReadsLines.turn (h : p.ReadsLines) (data : Bytes) : p.turn data = p.lineTurn data := by
  rcases h with h | h | h | h | h <;> simp [Core.turn, h]

theorem run_cons_feed (h : reader.final p = false) (value : UInt8) (data : Bytes) :
    reader.run p (value :: data) = reader.run (p.feed value) data :=
  reader.run_cons h value data

theorem feed_content (hstate : p.state = .Body) (hframing : p.bodyFraming = .ContentLength)
    (h : p.CanReceive) (value : UInt8) : p.feed value = (p.takeBody [value]).afterContent := by
  simp [feed, feedBody, consumeBody_eq h, hstate, hframing]

theorem feed_close (hstate : p.state = .Body) (hframing : p.bodyFraming = .CloseDelimited)
    (h : p.CanReceive) (value : UInt8) : p.feed value = p.takeBody [value] := by
  simp [feed, feedBody, consumeBody_eq h, hstate, hframing]

theorem feed_chunk (hstate : p.state = .ChunkData) (h : p.CanReceive) (value : UInt8) :
    p.feed value = (p.takeBody [value]).afterChunk 1 := by
  simp [feed, feedBody, consumeBody_eq h, hstate]

theorem feed_refused (hstate : p.state = .Body ∨ p.state = .ChunkData) (h : ¬ p.CanReceive)
    (value : UInt8) : p.feed value = p.setError noCallback := by
  rcases hstate with hstate | hstate <;>
    simp [feed, feedBody, consumeBody_refused h, hstate]

/-- The bytes of a body up to its length. -/
theorem run_content (hstate : p.state = .Body) (hframing : p.bodyFraming = .ContentLength)
    (h : p.CanReceive) (hdata : data ≠ [])
    (hlength : p.bodyBytesReceived + data.length ≤ p.contentLength) :
    reader.run p data = ((p.takeBody data).afterContent, []) := by
  induction data generalizing p with
  | nil => exact absurd rfl hdata
  | cons value data ih =>
    have hfinal : reader.final p = false := by simp [reader, isFinal, hstate]
    rw [run_cons_feed hfinal, feed_content hstate hframing h]
    by_cases hend : data = []
    · subst hend
      rfl
    · have hpos := length_pos_of_ne_nil hend
      rw [length_cons] at hlength
      -- The length is not reached, so the state stays.
      have hgoes : (p.takeBody [value]).afterContent = p.takeBody [value] := by
        have hne : (p.takeBody [value]).bodyBytesReceived ≠ (p.takeBody [value]).contentLength := by
          simp only [takeBody_bodyBytesReceived, takeBody_contentLength, length_singleton]
          omega
        simp only [afterContent, if_neg hne]
      rw [hgoes, ih (p := p.takeBody [value]) hstate hframing h hend, takeBody_append]
      · rfl
      · simp only [takeBody_bodyBytesReceived, takeBody_contentLength, length_singleton]
        omega

/-- The bytes of a chunk, or the first of them. -/
theorem run_chunk (hstate : p.state = .ChunkData) (h : p.CanReceive) (hdata : data ≠ [])
    (hlength : data.length ≤ p.chunkBytesRemaining) :
    reader.run p data = ((p.takeBody data).afterChunk data.length, []) := by
  induction data generalizing p with
  | nil => exact absurd rfl hdata
  | cons value data ih =>
    have hfinal : reader.final p = false := by simp [reader, isFinal, hstate]
    rw [run_cons_feed hfinal, feed_chunk hstate h]
    by_cases hend : data = []
    · subst hend
      rfl
    · have hpos := length_pos_of_ne_nil hend
      rw [length_cons] at hlength
      have hmore : 1 < (p.takeBody [value]).chunkBytesRemaining := by
        rw [takeBody_chunkBytesRemaining]
        omega
      have hwhole : (p.takeBody (value :: data)).afterChunk (value :: data).length =
          (((p.takeBody [value]).setRemaining
            ((p.takeBody [value]).chunkBytesRemaining - 1)).takeBody data).afterChunk
              data.length := by
        rw [← afterChunk_add, takeBody_append, Nat.add_comm]
        rfl
      rw [afterChunk_of_lt hmore, hwhole]
      exact ih hstate h hend (Nat.le_sub_of_add_le hlength)

/-- The bytes of a body that the end of the connection ends. -/
theorem run_close (hstate : p.state = .Body) (hframing : p.bodyFraming = .CloseDelimited)
    (h : p.CanReceive) (data : Bytes) : reader.run p data = (p.takeBody data, []) := by
  induction data generalizing p with
  | nil =>
    simp [takeBody]
  | cons value data ih =>
    have hfinal : reader.final p = false := by simp [reader, isFinal, hstate]
    rw [run_cons_feed hfinal, feed_close hstate hframing h,
      ih (p := p.takeBody [value]) hstate hframing h, takeBody_append]
    rfl

theorem run_refused (hstate : p.state = .Body ∨ p.state = .ChunkData) (h : ¬ p.CanReceive)
    (value : UInt8) (data : Bytes) :
    reader.run p (value :: data) = (p.setError noCallback, data) := by
  have hfinal : reader.final p = false := by
    rcases hstate with hstate | hstate <;> simp [reader, isFinal, hstate]
  rw [run_cons_feed hfinal, feed_refused hstate h]
  exact reader.run_final (by simp [reader, isFinal]) data

/-- The end of a buffered line, as a reader of bytes gets there. -/
theorem run_bufferLine (hp : p.ReadsLines) (hroom : p.lineBuffer.length < kLineBufferSize)
    (data : Bytes) :
    reader.run p data =
      match p.bufferLine data with
      | (none, q, rest) => (q, rest)
      | (some line, q, rest) => reader.run (q.handleLine line).2 rest := by
  induction data generalizing p with
  | nil => rfl
  | cons value data ih =>
    rw [run_cons_feed hp.not_final, hp.feed, bufferLine, if_neg (by omega)]
    simp only [feedLine]
    split
    · rfl
    · split
      · exact reader.run_final (by simp [reader, isFinal]) data
      · refine ih (p := { p with lineBuffer := p.lineBuffer ++ [value] }) hp ?_
        simp only [length_append, length_singleton] at *
        omega

theorem endsLine_single (a : UInt8) : endsLine [a] = false := by
  simp [endsLine, ascii, List.isSuffixOf, List.isPrefixOf]

theorem endsLine_append (front : Bytes) (a b : UInt8) :
    endsLine (front ++ [a] ++ [b]) = true ↔ a = 13 ∧ b = 10 := by
  have hreverse : (front ++ [a] ++ [b]).reverse = b :: a :: front.reverse := by simp
  rw [endsLine, List.isSuffixOf, hreverse]
  simp only [ascii, map_cons, map_nil, reverse_cons, reverse_nil,
    nil_append, singleton_append, List.isPrefixOf, Bool.and_true, Bool.and_eq_true,
    beq_iff_eq]
  constructor
  · rintro ⟨hb, ha⟩
    exact ⟨ha.symm, hb.symm⟩
  · rintro ⟨rfl, rfl⟩
    exact ⟨rfl, rfl⟩

theorem endsLine_append_eq_false {front : Bytes} {b : UInt8} (h : ¬ (a = 13 ∧ b = 10)) :
    endsLine (front ++ [a] ++ [b]) = false :=
  Bool.eq_false_iff.mpr fun hend => h ((endsLine_append front a b).mp hend)

def withBuffer (p : Core) (buffer : Bytes) : Core := { p with lineBuffer := buffer }

theorem withBuffer_eq_self (h : p.lineBuffer = buffer) : p.withBuffer buffer = p := by
  rw [withBuffer, ← h]

theorem bufferLine_ends (p : Core) (hroom : buffer.length < kLineBufferSize)
    (hend : endsLine (buffer ++ [value]) = true) :
    (p.withBuffer buffer).bufferLine (value :: data) =
      (some ((buffer ++ [value]).take ((buffer ++ [value]).length - 2)), p.withBuffer [], data) := by
  simp [bufferLine, withBuffer, if_neg (Nat.not_le.mpr hroom), hend]

theorem bufferLine_goes (p : Core) (hroom : buffer.length + 1 < kLineBufferSize)
    (hend : endsLine (buffer ++ [value]) = false) :
    (p.withBuffer buffer).bufferLine (value :: data) =
      (p.withBuffer (buffer ++ [value])).bufferLine data := by
  have hlong : ¬ kLineBufferSize ≤ buffer.length := by omega
  have hfull : ¬ buffer.length + 1 = kLineBufferSize := by omega
  simp [bufferLine, withBuffer, if_neg hlong, hend, if_neg hfull]

theorem bufferLine_full (p : Core) (hroom : buffer.length + 1 = kLineBufferSize)
    (hend : endsLine (buffer ++ [value]) = false) :
    (p.withBuffer buffer).bufferLine (value :: data) =
      (none, (p.withBuffer (buffer ++ [value])).setError lineTooLong, data) := by
  have hlong : ¬ kLineBufferSize ≤ buffer.length := by omega
  simp [bufferLine, withBuffer, if_neg hlong, hend, if_pos hroom]

/-- A line that fits is taken from the buffer and the data as it stands there. -/
theorem bufferLine_fits (p : Core) {front : Bytes} (hfind : findCrlf (a :: data) = some i)
    (hfit : front.length + i + 2 ≤ kLineBufferSize) :
    (p.withBuffer (front ++ [a])).bufferLine data =
      (some (front ++ (a :: data).take i), p.withBuffer [], (a :: data).drop (i + 2)) := by
  induction data generalizing front a i with
  | nil => simp [findCrlf] at hfind
  | cons b data ih =>
    unfold findCrlf at hfind
    split at hfind
    · -- The two bytes that end the line.
      rename_i hend
      obtain rfl : 0 = i := by simpa using hfind
      have hroom : (front ++ [a]).length < kLineBufferSize := by
        rw [length_append, length_singleton]
        omega
      rw [bufferLine_ends p hroom ((endsLine_append front a b).mpr hend)]
      simp
    · rename_i hend
      obtain ⟨j, hj, rfl⟩ := Option.map_eq_some_iff.mp hfind
      have hlength : (front ++ [a]).length = front.length + 1 := by simp
      rw [bufferLine_goes p (by omega) (endsLine_append_eq_false hend), ih hj (by omega)]
      simp

/-- A line that does not fit fills the buffer. -/
theorem bufferLine_long (p : Core) (front : Bytes) (hfind : findCrlf (a :: data) = some i)
    (hlong : kLineBufferSize < front.length + i + 2) (hroom : front.length + 1 < kLineBufferSize) :
    ∃ buffer rest, (p.withBuffer (front ++ [a])).bufferLine data =
      (none, (p.withBuffer buffer).setError lineTooLong, rest) := by
  induction data generalizing front a i with
  | nil => simp [findCrlf] at hfind
  | cons b data ih =>
    unfold findCrlf at hfind
    split at hfind
    · obtain rfl : 0 = i := by simpa using hfind
      omega
    · rename_i hend
      obtain ⟨j, hj, rfl⟩ := Option.map_eq_some_iff.mp hfind
      have hlength : (front ++ [a]).length = front.length + 1 := by simp
      by_cases hfull : front.length + 2 = kLineBufferSize
      · exact ⟨_, _, bufferLine_full p (by omega) (endsLine_append_eq_false hend)⟩
      · rw [bufferLine_goes p (by omega) (endsLine_append_eq_false hend)]
        exact ih (front ++ [a]) hj (by omega) (by omega)

theorem bufferLine_first (hempty : p.lineBuffer = []) (a : UInt8) (data : Bytes) :
    p.bufferLine (a :: data) = (p.withBuffer ([] ++ [a])).bufferLine data := by
  rw [← bufferLine_goes p (by simp [kLineBufferSize]) (endsLine_single a),
    withBuffer_eq_self hempty]

/-- A line read in place, as a reader of bytes gets to its end. -/
theorem run_line (hp : p.ReadsLines) (hempty : p.lineBuffer = []) (hfind : findCrlf data = some i)
    (hfit : i + 2 ≤ kLineBufferSize) :
    reader.run p data = reader.run (p.handleLine (data.take i)).2 (data.drop (i + 2)) := by
  cases data with
  | nil => simp [findCrlf] at hfind
  | cons a data =>
    rw [run_bufferLine hp (by simp [hempty, kLineBufferSize]), bufferLine_first hempty,
      bufferLine_fits p hfind (by simpa using hfit), withBuffer_eq_self hempty]
    rfl

theorem run_long (hp : p.ReadsLines) (hempty : p.lineBuffer = []) (hfind : findCrlf data = some i)
    (hlong : kLineBufferSize < i + 2) :
    ∃ buffer rest, reader.run p data = ((p.withBuffer buffer).setError lineTooLong, rest) := by
  cases data with
  | nil => simp [findCrlf] at hfind
  | cons a data =>
    obtain ⟨buffer, rest, hbuffer⟩ :=
      bufferLine_long p [] hfind (by simpa using hlong) (by simp [kLineBufferSize])
    refine ⟨buffer, rest, ?_⟩
    rw [run_bufferLine hp (by simp [hempty, kLineBufferSize]), bufferLine_first hempty, hbuffer]

/-- The length that the fields of a header section agree on is kept for its framing. -/
inductive Measured (p : Core) : Core → Prop
  | absent (h : p.response.headers.contains contentLengthName = false) :
      Measured p { p with hasContentLength := false }
  | present (h : p.response.headers.contains contentLengthName = true) {parsedLength : Option Nat}
      (hparsed : commonLength none (p.response.headers.listMembers contentLengthName) =
        .ok parsedLength)
      (hne : p.response.headers.listMembers contentLengthName ≠ []) :
      Measured p { p with hasContentLength := true, contentLength := parsedLength.getD 0 }

theorem parseHeadersComplete_ok (h : p.parseHeadersComplete = (true, p')) :
    ∃ q, p.Measured q ∧ q.Framed p' := by
  unfold parseHeadersComplete at h
  cases hlength : p.response.headers.contains contentLengthName with
  | false =>
    simp only [hlength] at h
    exact ⟨_, .absent hlength, frameMessage_ok h⟩
  | true =>
    simp only [hlength, if_true] at h
    split at h
    · simp at h
    · rename_i q hq
      obtain ⟨parsedLength, hparsed, hne, rfl⟩ := parseContentLength_ok hq
      exact ⟨_, .present hlength hparsed hne, frameMessage_ok h⟩

/-- What the states that read lines make of a line. -/
inductive Handled (p : Core) : Core → Prop
  | error {p' : Core} (h : p'.state = .Error) : Handled p p'
  | statusLine (hstate : p.state = .StatusLine) (minor code : Nat) (reasonPhrase : Bytes) :
      Handled p { p with
        httpMajor := 1
        httpMinor := minor
        response := { p.response with code := code, reasonPhrase := reasonPhrase }
        state := .Headers }
  | header (hstate : p.state = .Headers) (headers : JobHttpHeader) :
      Handled p { p with response := { p.response with headers := headers } }
  | headersComplete (hstate : p.state = .Headers) {q p' : Core} (hq : p.Measured q)
      (h : q.Framed p') : Handled p p'
  | chunkSize (hstate : p.state = .ChunkSize) (n : Nat) :
      Handled p { p with
        chunkBytesRemaining := n
        state := if n = 0 then .Trailers else .ChunkData }
  | chunkDataEnd (hstate : p.state = .ChunkDataEnd) : Handled p { p with state := .ChunkSize }
  | trailer (hstate : p.state = .Trailers) (trailers : JobHttpHeader) :
      Handled p { p with response := { p.response with trailers := trailers } }
  | trailersEnd (hstate : p.state = .Trailers) : Handled p { p with state := .Complete }

theorem handled_of_ok (hlines : p.ReadsLines) (h : p.handleLine line = (true, p')) :
    p.Handled p' := by
  unfold handleLine at h
  split at h
  · rename_i hstate
    split at h
    · simp at h
    · rename_i q hq
      obtain ⟨minor, code, reasonPhrase, -, -, rfl⟩ := parseStatusLine_ok hq
      obtain rfl := (Prod.mk.inj h).2
      exact .statusLine hstate minor code reasonPhrase
  · rename_i hstate
    split at h
    · obtain ⟨headers, rfl⟩ := parseHeaderLine_ok h
      exact .header hstate headers
    · obtain ⟨q, hq, hframed⟩ := parseHeadersComplete_ok h
      exact .headersComplete hstate hq hframed
  · rename_i hstate
    split at h
    · simp at h
    · rename_i q hq
      obtain ⟨n, -, rfl⟩ := parseChunkSize_ok hq
      obtain rfl := (Prod.mk.inj h).2
      exact .chunkSize hstate n
  · split at h
    · simp [fail] at h
    · obtain rfl := (Prod.mk.inj h).2
      exact .chunkDataEnd ‹_›
  · rename_i hstate
    split at h
    · obtain rfl := (Prod.mk.inj h).2
      exact .trailersEnd hstate
    · obtain ⟨trailers, rfl⟩ := parseTrailerLine_ok h
      exact .trailer hstate trailers
  · rcases hlines with hstate | hstate <;> simp_all

theorem handleLine_handled (hlines : p.ReadsLines) (line : Bytes) :
    p.Handled (p.handleLine line).2 := by
  rcases hresult : p.handleLine line with ⟨ok⟩
  cases ok with
  | false =>
    have hreports := handleLine_reports p line
    rw [hresult] at hreports
    exact .error (hreports rfl)
  | true => exact handled_of_ok hlines hresult

/-- The buffer has room, and a body state still waits for bytes. -/
structure Settled (p : Core) : Prop where
  room : p.state ≠ .Error → p.lineBuffer.length < kLineBufferSize
  start : p.state = .StatusLine ∨ p.state = .Headers → p.bodyBytesReceived = 0
  body : p.state = .Body → p.bodyFraming = .CloseDelimited ∨
    (p.bodyFraming = .ContentLength ∧ p.bodyBytesReceived < p.contentLength)
  chunk : p.state = .ChunkData → p.chunkBytesRemaining ≠ 0

theorem settled_of_error (h : p.state = .Error) : p.Settled where
  room hp := absurd h hp
  start hp := by simp [h] at hp
  body hp := by simp [h] at hp
  chunk hp := by simp [h] at hp

theorem settled_of_complete (h : p.state = .Complete)
    (hroom : p.lineBuffer.length < kLineBufferSize) : p.Settled where
  room _ := hroom
  start hp := by simp [h] at hp
  body hp := by simp [h] at hp
  chunk hp := by simp [h] at hp

theorem settled_fresh (method : HttpMethod) (mode : BodyMode) (callback : Bool) :
    (fresh method mode callback).Settled where
  room _ := by simp [fresh, kLineBufferSize]
  start _ := rfl
  body hp := by simp [fresh] at hp
  chunk hp := by simp [fresh] at hp

theorem bodyHeadersComplete_settled (hroom : p.lineBuffer.length < kLineBufferSize)
    (hstart : p.bodyBytesReceived = 0) (h : p.bodyHeadersComplete = (true, p')) : p'.Settled := by
  rcases bodyHeadersComplete_ok h with ⟨-, -, -, ⟨-, rfl⟩ | ⟨-, rfl⟩⟩ | ⟨-, -, rfl⟩ | ⟨-, -, rfl⟩
  · exact ⟨fun _ => hroom, by simp, by simp, by simp⟩
  · exact ⟨fun _ => hroom, by simp, by simp, by simp⟩
  · refine ⟨fun _ => hroom, ?_, ?_, ?_⟩
    · intro hstate
      split at hstate <;> simp at hstate
    · intro hstate
      right
      refine ⟨rfl, ?_⟩
      simp only at hstate ⊢
      split at hstate
      · simp at hstate
      · omega
    · intro hstate
      split at hstate <;> simp at hstate
  · exact ⟨fun _ => hroom, by simp, by simp, by simp⟩

theorem Framed.settled (h : p.Framed p') (hroom : p.lineBuffer.length < kLineBufferSize)
    (hstart : p.bodyBytesReceived = 0) : p'.Settled := by
  cases h with
  | interim hcode h101 =>
    exact ⟨fun _ => by simp [resetMessage, kLineBufferSize], fun _ => rfl, by simp [resetMessage],
      by simp [resetMessage]⟩
  | tunnel h => exact settled_of_complete rfl hroom
  | none h hcode => exact settled_of_complete rfl hroom
  | body hp h => exact bodyHeadersComplete_settled hroom hstart h

theorem Handled.settled (h : p.Handled p') (hp : p.Settled) (hlines : p.ReadsLines) :
    p'.Settled := by
  have hroom := hp.room (by rcases hlines with h | h | h | h | h <;> simp [h])
  cases h with
  | error h => exact settled_of_error h
  | statusLine hstate => exact ⟨fun _ => hroom, fun _ => hp.start (Or.inl hstate), by simp, by simp⟩
  | header hstate => exact ⟨hp.room, hp.start, hp.body, hp.chunk⟩
  | headersComplete hstate hq h =>
    have hstart := hp.start (Or.inr hstate)
    cases hq with
    | absent => exact h.settled hroom hstart
    | present => exact h.settled hroom hstart
  | chunkSize hstate n =>
    by_cases hn : n = 0
    · rw [if_pos hn]
      exact ⟨fun _ => hroom, by simp, by simp, by simp⟩
    · rw [if_neg hn]
      exact ⟨fun _ => hroom, by simp, by simp, fun _ => hn⟩
  | chunkDataEnd hstate => exact ⟨fun _ => hroom, by simp, by simp, by simp⟩
  | trailer hstate => exact ⟨hp.room, hp.start, hp.body, hp.chunk⟩
  | trailersEnd hstate => exact settled_of_complete rfl hroom

inductive Fed (p : Core) : Core → Prop
  | error {p' : Core} (h : p'.state = .Error) : Fed p p'
  | buffer (hlines : p.ReadsLines) {buffer : Bytes} (hroom : buffer.length < kLineBufferSize) :
      Fed p (p.withBuffer buffer)
  | line (hlines : p.ReadsLines) {p' : Core} (h : (p.withBuffer []).Handled p') : Fed p p'
  | close (hstate : p.state = .Body) (hframing : p.bodyFraming = .CloseDelimited) (value : UInt8) :
      Fed p (p.takeBody [value])
  | content (hstate : p.state = .Body) (hframing : p.bodyFraming = .ContentLength)
      (hlength : p.bodyBytesReceived < p.contentLength) (value : UInt8) :
      Fed p (p.takeBody [value]).afterContent
  | chunk (hstate : p.state = .ChunkData) (value : UInt8) : Fed p ((p.takeBody [value]).afterChunk 1)

theorem feedLine_fed (hp : p.Settled) (hlines : p.ReadsLines) (value : UInt8) :
    p.Fed (p.feedLine value) := by
  have hroom := hp.room (by rcases hlines with h | h | h | h | h <;> simp [h])
  unfold feedLine
  simp only
  split
  · exact .line hlines (handleLine_handled (p := p.withBuffer []) hlines _)
  · split
    · exact .error rfl
    · rename_i hfull
      refine .buffer hlines ?_
      simp only [length_append, length_singleton] at hfull ⊢
      omega

theorem feed_fed (hp : p.Settled) (hfinal : reader.final p = false) (value : UInt8) :
    p.Fed (p.feed value) := by
  by_cases hbody : p.state = .Body ∨ p.state = .ChunkData
  · by_cases hreceive : p.CanReceive
    · rcases hbody with hstate | hstate
      · rcases hp.body hstate with hframing | ⟨hframing, hlength⟩
        · rw [feed_close hstate hframing hreceive]
          exact .close hstate hframing value
        · rw [feed_content hstate hframing hreceive]
          exact .content hstate hframing hlength value
      · rw [feed_chunk hstate hreceive]
        exact .chunk hstate value
    · rw [feed_refused hbody hreceive]
      exact .error rfl
  · have hlines : p.ReadsLines := by
      cases hstate : p.state <;> simp_all [ReadsLines, reader, isFinal]
    rw [hlines.feed]
    exact feedLine_fed hp hlines value

theorem Fed.settled (h : p.Fed p') (hp : p.Settled) (hfinal : reader.final p = false) :
    p'.Settled := by
  have hroom := hp.room (by intro herror; simp [reader, isFinal, herror] at hfinal)
  cases h with
  | error h => exact settled_of_error h
  | buffer hlines hbuffer => exact ⟨fun _ => hbuffer, hp.start, hp.body, hp.chunk⟩
  | line hlines h =>
    have hempty : (p.withBuffer []).Settled :=
      ⟨fun _ => by simp [withBuffer, kLineBufferSize], hp.start, hp.body, hp.chunk⟩
    exact h.settled hempty hlines
  | close hstate hframing value =>
    exact ⟨fun _ => hroom, by simp [hstate], fun _ => Or.inl hframing, by simp [hstate]⟩
  | content hstate hframing hlength value =>
    by_cases hend : p.bodyBytesReceived + 1 = p.contentLength
    · exact settled_of_complete (if_pos hend) hroom
    · have hgoes : ((p.takeBody [value]).afterContent).state = .Body := (if_neg hend).trans hstate
      refine ⟨fun _ => hroom, by simp [hgoes], fun _ => Or.inr ⟨hframing, ?_⟩, by simp [hgoes]⟩
      exact Nat.lt_of_le_of_ne hlength hend
  | chunk hstate value =>
    by_cases hend : p.chunkBytesRemaining - 1 = 0
    · have hdone : ((p.takeBody [value]).afterChunk 1).state = .ChunkDataEnd := if_pos hend
      exact ⟨fun _ => hroom, by simp [hdone], by simp [hdone], by simp [hdone]⟩
    · have hgoes : ((p.takeBody [value]).afterChunk 1).state = .ChunkData :=
        (if_neg hend).trans hstate
      exact ⟨fun _ => hroom, by simp [hgoes], by simp [hgoes], fun _ => hend⟩

theorem feed_settled (hp : p.Settled) (hfinal : reader.final p = false) (value : UInt8) :
    (p.feed value).Settled :=
  (feed_fed hp hfinal value).settled hp hfinal

/-- A settled parser stays settled, however much it reads. -/
theorem run_settled (hp : p.Settled) (data : Bytes) : (reader.run p data).1.Settled :=
  reader.run_invariant Settled (fun _ value hq hfinal => feed_settled hq hfinal value) hp data

end JobHttpParser.Core

end JobNet
