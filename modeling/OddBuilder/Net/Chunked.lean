import OddBuilder.Net.Framing

/-!
# Bodies of a known end

Chunked bodies and bodies of a stated length, as a sender writes them, with
arbitrary bytes behind. The parser takes the body, completes the response and
leaves the bytes behind unread. A line of the coding has to fit in the line
buffer, and a trailer section in its field list.
-/

namespace JobNet

open JobHttpHeader JobHttpParser Core List

def crlf : Bytes := [13, 10]

/-- A hexadecimal number of any size. -/
def hexadecimal (text : Bytes) : Option Nat := if text = [] then none else digitsFrom 16 0 text

/-- The line in front of a chunk: its size, and an extension. -/
structure ChunkLine where
  sizeText : Bytes
  extension : Bytes

/-- A line that a sender may write in front of `n` bytes. -/
structure ChunkLine.Coded (line : ChunkLine) (n : Nat) : Prop where
  size : hexadecimal line.sizeText = some n
  extension : line.extension = [] ∨ ∃ text, line.extension = 59 :: text
  noReturn : 13 ∉ line.extension

def ChunkLine.encode (line : ChunkLine) : Bytes := line.sizeText ++ line.extension ++ crlf

/-- A line that the parser has room for. -/
def ChunkLine.Fits (line : ChunkLine) : Prop :=
  line.sizeText.length + line.extension.length + 2 ≤ kLineBufferSize

instance (line : ChunkLine) : Decidable line.Fits :=
  inferInstanceAs (Decidable (line.sizeText.length + line.extension.length + 2 ≤ kLineBufferSize))

structure Chunk where
  line : ChunkLine
  data : Bytes

def Chunk.encode (chunk : Chunk) : Bytes := chunk.line.encode ++ (chunk.data ++ crlf)

structure Chunk.Coded (chunk : Chunk) : Prop where
  line : chunk.line.Coded chunk.data.length
  data : chunk.data ≠ []

/-- A chunk whose line and size the parser has room for. -/
def Chunk.Fits (chunk : Chunk) : Prop := chunk.line.Fits ∧ chunk.data.length ≤ maxSize

structure Trailer where
  name : Bytes
  value : Bytes

def Trailer.line (trailer : Trailer) : Bytes := trailer.name ++ 58 :: trailer.value

/-- A field that may stand behind a body. -/
structure Trailer.Allowed (trailer : Trailer) : Prop where
  name : isValidFieldName trailer.name = true
  notForbidden : isForbiddenTrailer trailer.name = false
  value : trailer.value.any isControl = false

def Trailer.Fits (trailer : Trailer) : Prop := trailer.line.length + 2 ≤ kLineBufferSize

instance (trailer : Trailer) : Decidable trailer.Fits :=
  inferInstanceAs (Decidable (trailer.line.length + 2 ≤ kLineBufferSize))

def Trailer.field (trailer : Trailer) : Field :=
  ⟨normalizeKey trailer.name, trailer.name, trimOws trailer.value⟩

def encodeTrailers (trailers : List Trailer) : Bytes := trailers.flatMap fun t => t.line ++ crlf

/-- A whole body in the chunked coding. -/
def chunkedBody (chunks : List Chunk) (last : ChunkLine) (trailers : List Trailer) : Bytes :=
  chunks.flatMap Chunk.encode ++ (last.encode ++ (encodeTrailers trailers ++ crlf))

theorem find_eq_none {c : UInt8} {text : Bytes} (h : c ∉ text) : find c text = none := by
  induction text with
  | nil => rfl
  | cons b text ih =>
    obtain ⟨hb, htext⟩ : ¬ c = b ∧ c ∉ text := by simpa using h
    rw [find, if_neg (Ne.symm hb), ih htext]
    rfl

theorem find_append {c : UInt8} {front : Bytes} (h : c ∉ front) (text : Bytes) :
    find c (front ++ c :: text) = some front.length := by
  induction front with
  | nil => simp [find]
  | cons b front ih =>
    obtain ⟨hb, hfront⟩ : ¬ c = b ∧ c ∉ front := by simpa using h
    rw [cons_append, find, if_neg (Ne.symm hb), ih hfront]
    rfl

theorem findCrlf_append {line : Bytes} (h : 13 ∉ line) (rest : Bytes) :
    findCrlf (line ++ 13 :: 10 :: rest) = some line.length := by
  induction line with
  | nil => simp [findCrlf]
  | cons a line ih =>
    obtain ⟨ha, hline⟩ : ¬ (13 : UInt8) = a ∧ 13 ∉ line := by simpa using h
    have hsecond : ∃ b text, line ++ 13 :: 10 :: rest = b :: text := by
      cases line with
      | nil => exact ⟨_, _, rfl⟩
      | cons b line => exact ⟨_, _, rfl⟩
    obtain ⟨b, text, htext⟩ := hsecond
    rw [cons_append, htext, findCrlf, if_neg (by rintro ⟨rfl⟩; exact ha rfl), ← htext, ih hline]
    rfl

theorem digitsFrom_digit {base value n : Nat} {text : Bytes} (h : digitsFrom base value text = some n)
    {c : UInt8} (hc : c ∈ text) : (digitValue c).isSome := by
  induction text generalizing value with
  | nil => simp at hc
  | cons b text ih =>
    unfold digitsFrom at h
    split at h
    · simp at h
    · rename_i d hd
      split at h
      · rcases mem_cons.mp hc with rfl | hc
        · simp [hd]
        · exact ih h hc
      · simp at h

theorem hexadecimal_digit {text : Bytes} {n : Nat} (h : hexadecimal text = some n) {c : UInt8}
    (hc : digitValue c = none) : c ∉ text := by
  intro hmem
  unfold hexadecimal at h
  split at h
  · simp at h
  · have hdigit := digitsFrom_digit h hmem
    simp [hc] at hdigit

theorem fromChars_hexadecimal {text : Bytes} {n : Nat} (h : hexadecimal text = some n)
    (hn : n ≤ maxSize) : fromChars 16 maxSize text = some n := by
  unfold hexadecimal at h
  split at h
  · simp at h
  · rw [fromChars, if_neg ‹_›, h]
    simp [hn]

theorem ChunkLine.Coded.sizeText_ne_nil {line : ChunkLine} {n : Nat} (h : line.Coded n) :
    line.sizeText ≠ [] := by
  intro hnil
  have hsize := h.size
  rw [hnil] at hsize
  simp [hexadecimal] at hsize

theorem ChunkLine.Coded.sizeTextOf {line : ChunkLine} {n : Nat} (h : line.Coded n) :
    sizeTextOf (line.sizeText ++ line.extension) = line.sizeText := by
  have hsemicolon : 59 ∉ line.sizeText := hexadecimal_digit h.size (by decide)
  unfold Core.sizeTextOf
  rcases h.extension with hext | ⟨text, hext⟩
  · rw [hext, append_nil, find_eq_none hsemicolon]
  · rw [hext, find_append hsemicolon]
    simp

theorem ChunkLine.Coded.noReturn_line {line : ChunkLine} {n : Nat} (h : line.Coded n) :
    13 ∉ line.sizeText ++ line.extension := by
  rw [mem_append]
  rintro (hmem | hmem)
  · exact hexadecimal_digit h.size (by decide) hmem
  · exact h.noReturn hmem

namespace JobHttpParser.Core

theorem run_append_run {p q r : Core} {front data : Bytes} (hfront : reader.run p front = (q, []))
    (hdata : reader.run q data = (r, [])) : reader.run p (front ++ data) = (r, []) := by
  rw [reader.run_append_of_nil hfront, hdata]

/-- A whole line goes to its state. -/
theorem run_lineBytes {p : Core} (hlines : p.ReadsLines) (hempty : p.lineBuffer = []) {line : Bytes}
    (hline : 13 ∉ line) (hfit : line.length + 2 ≤ kLineBufferSize) :
    reader.run p (line ++ crlf) = ((p.handleLine line).2, []) := by
  rw [crlf, run_line hlines hempty (findCrlf_append hline []) hfit]
  simp

theorem run_emptyLine {p : Core} (hlines : p.ReadsLines) (hempty : p.lineBuffer = []) :
    reader.run p crlf = ((p.handleLine []).2, []) :=
  run_lineBytes hlines hempty (not_mem_nil) (by simp [kLineBufferSize])

def setState (p : Core) (state : State) : Core := { p with state := state }

theorem afterChunk_of_eq {p : Core} {n : Nat} (h : p.chunkBytesRemaining = n) :
    p.afterChunk n = (p.setRemaining 0).setState .ChunkDataEnd := by
  subst h
  simp [afterChunk, setRemaining, setState]

theorem run_chunkLine {p : Core} (hstate : p.state = .ChunkSize) (hempty : p.lineBuffer = [])
    {line : ChunkLine} {n : Nat} (hline : line.Coded n) (hfits : line.Fits) (hn : n ≤ maxSize) :
    reader.run p line.encode =
      ((p.setRemaining n).setState (if n = 0 then .Trailers else .ChunkData), []) := by
  have hlines : p.ReadsLines := by simp [ReadsLines, hstate]
  have hlength : (line.sizeText ++ line.extension).length + 2 ≤ kLineBufferSize := by
    rw [length_append]
    exact hfits
  have hsize : p.parseChunkSize (line.sizeText ++ line.extension) =
      (true, p.setRemaining n) := by
    rw [parseChunkSize, hline.sizeTextOf, if_neg hline.sizeText_ne_nil,
      fromChars_hexadecimal hline.size hn]
    rfl
  rw [ChunkLine.encode, run_lineBytes hlines hempty hline.noReturn_line hlength]
  simp only [handleLine, hstate, hsize]
  rfl

/-- A line in front of a chunk that the buffer has no room for is an error. -/
theorem run_chunkLine_long {p : Core} (hstate : p.state = .ChunkSize) (hempty : p.lineBuffer = [])
    {line : ChunkLine} {n : Nat} (hline : line.Coded n) (hlong : ¬ line.Fits) (rest : Bytes) :
    (reader.run p (line.encode ++ rest)).1.state = .Error := by
  have hlines : p.ReadsLines := by simp [ReadsLines, hstate]
  have hbytes : line.encode ++ rest = line.sizeText ++ line.extension ++ 13 :: 10 :: rest := by
    simp [ChunkLine.encode, crlf]
  have hlength : kLineBufferSize < (line.sizeText ++ line.extension).length + 2 := by
    rw [length_append]
    exact Nat.not_le.mp hlong
  obtain ⟨buffer, left, hrun⟩ := run_long hlines hempty (findCrlf_append hline.noReturn_line rest) hlength
  rw [hbytes, hrun]
  rfl

/-- One chunk: its bytes go where the body goes. -/
theorem run_chunkBytes {p : Core} (hstate : p.state = .ChunkSize) (hempty : p.lineBuffer = [])
    (hreceive : p.CanReceive) {chunk : Chunk} (hchunk : chunk.Coded) (hfits : chunk.Fits) :
    reader.run p chunk.encode = ((p.takeBody chunk.data).setRemaining 0, []) := by
  have hpos := length_pos_of_ne_nil hchunk.data
  have hsize : ¬ chunk.data.length = 0 := by omega
  refine run_append_run (run_chunkLine hstate hempty hchunk.line hfits.1 hfits.2) ?_
  rw [if_neg hsize]
  have hbytes := run_chunk (p := (p.setRemaining chunk.data.length).setState .ChunkData) rfl hreceive
    hchunk.data (Nat.le_refl _)
  refine run_append_run hbytes ?_
  -- After the last byte of the chunk its end is next.
  rw [afterChunk_of_eq (by rfl)]
  refine (run_emptyLine (by simp [ReadsLines, setState]) ?_).trans ?_
  · exact hempty
  · simp only [handleLine]
    rw [← hstate]
    rfl

/-- All chunks, by induction over their list. -/
theorem run_chunks {p : Core} (hstate : p.state = .ChunkSize) (hempty : p.lineBuffer = [])
    (hreceive : p.CanReceive) {chunks : List Chunk} (hchunks : ∀ chunk ∈ chunks, chunk.Coded)
    (hfits : ∀ chunk ∈ chunks, chunk.Fits) :
    ∃ n, reader.run p (chunks.flatMap Chunk.encode) =
      ((p.takeBody (chunks.flatMap Chunk.data)).setRemaining n, []) := by
  induction chunks generalizing p with
  | nil =>
    refine ⟨p.chunkBytesRemaining, ?_⟩
    simp [takeBody, setRemaining]
  | cons chunk chunks ih =>
    have hfirst := run_chunkBytes hstate hempty hreceive (hchunks chunk (by simp))
      (hfits chunk (by simp))
    obtain ⟨n, hlater⟩ := ih (p := (p.takeBody chunk.data).setRemaining 0) hstate hempty hreceive
      (fun c hc => hchunks c (mem_cons_of_mem _ hc))
      (fun c hc => hfits c (mem_cons_of_mem _ hc))
    refine ⟨n, ?_⟩
    rw [flatMap_cons, flatMap_cons, ← takeBody_append]
    exact run_append_run hfirst hlater

theorem tchar_not {name : Bytes} (h : isValidFieldName name = true) {c : UInt8}
    (hc : isTChar c = false) : c ∉ name := by
  intro hmem
  have hall := (Bool.and_eq_true _ _ ▸ h).2
  have htchar := all_eq_true.mp hall c hmem
  exact absurd (htchar.symm.trans hc) (by simp)

theorem control_not {value : Bytes} (h : value.any isControl = false) {c : UInt8}
    (hc : isControl c = true) : c ∉ value := by
  intro hmem
  have hany : value.any isControl = true := any_eq_true.mpr ⟨c, hmem, hc⟩
  exact absurd (hany.symm.trans h) (by simp)

theorem mem_of_mem_trimOws {c : UInt8} {value : Bytes} (h : c ∈ trimOws value) : c ∈ value := by
  rw [trimOws, mem_reverse] at h
  have h := (dropWhile_suffix isOws).subset h
  rw [mem_reverse] at h
  exact (dropWhile_suffix isOws).subset h

theorem makeField_of_valid {name value : Bytes} (hname : isValidFieldName name = true)
    (hvalue : value.any isControl = false) :
    makeField name value = some ⟨normalizeKey name, name, trimOws value⟩ := by
  have htrimmed : isValidFieldValue (trimOws value) = true := by
    rw [isValidFieldValue, all_eq_true]
    intro c hc
    have hmem := mem_of_mem_trimOws hc
    have hnot (d : UInt8) (hd : isControl d = true) : c ≠ d := by
      rintro rfl
      exact control_not hvalue hd hmem
    simp [hnot 0 (by decide), hnot 13 (by decide), hnot 10 (by decide)]
  simp [makeField, hname, htrimmed]

theorem parseFieldLine_of_valid {name value : Bytes} (hname : isValidFieldName name = true)
    (hvalue : value.any isControl = false) {target : JobHttpHeader} {maxFields : Nat}
    (hsize : target.size < maxFields) : parseFieldLine (name ++ 58 :: value) target maxFields =
      .ok ⟨target.fields ++ [⟨normalizeKey name, name, trimOws value⟩]⟩ := by
  have hcolon : find 58 (name ++ 58 :: value) = some name.length :=
    find_append (tchar_not hname (by decide)) value
  obtain ⟨front, rest, hfront⟩ : ∃ front rest, name = front :: rest := by
    apply exists_cons_of_ne_nil
    intro hnil
    rw [hnil] at hname
    simp [isValidFieldName] at hname
  have hows : isOws front = false := by
    apply Bool.eq_false_iff.mpr
    intro hblank
    have hmem : front ∈ name := by simp [hfront]
    rcases (by simpa [isOws] using hblank : front = 32 ∨ front = 9) with rfl | rfl
    · exact tchar_not hname (by decide) hmem
    · exact tchar_not hname (by decide) hmem
  have hline : name ++ 58 :: value = front :: (rest ++ 58 :: value) := by simp [hfront]
  have hpositive : name.length ≠ 0 := by simp [hfront]
  rw [hline]
  simp only [parseFieldLine, hows]
  rw [← hline, hcolon]
  simp [hpositive, hvalue, if_neg (Nat.not_le.mpr hsize),
    JobHttpHeader.append, makeField_of_valid hname hvalue]

theorem parseFieldLine_trailer {trailer : Trailer} (h : trailer.Allowed) {target : JobHttpHeader}
    {maxFields : Nat} (hsize : target.size < maxFields) :
    parseFieldLine trailer.line target maxFields = .ok ⟨target.fields ++ [trailer.field]⟩ :=
  parseFieldLine_of_valid h.name h.value hsize

def setTrailers (p : Core) (trailers : JobHttpHeader) : Core :=
  { p with response := { p.response with trailers := trailers } }

theorem run_trailer {p : Core} (hstate : p.state = .Trailers) (hempty : p.lineBuffer = [])
    {trailer : Trailer} (h : trailer.Allowed) (hfits : trailer.Fits)
    (hsize : p.response.trailers.size < kMaxTrailerFields) :
    reader.run p (trailer.line ++ crlf) =
      (p.setTrailers ⟨p.response.trailers.fields ++ [trailer.field]⟩, []) := by
  have hline : 13 ∉ trailer.line := by
    rw [Trailer.line, mem_append, mem_cons]
    rintro (hmem | hmem | hmem)
    · exact tchar_not h.name (by decide) hmem
    · simp at hmem
    · exact control_not h.value (by decide) hmem
  have hne : trailer.line ≠ [] := by simp [Trailer.line]
  have hallowed : ((find 58 trailer.line).any fun colon =>
      colon ≠ 0 && isForbiddenTrailer (trailer.line.take colon)) = false := by
    have hcolon : find 58 trailer.line = some trailer.name.length :=
      find_append (tchar_not h.name (by decide)) trailer.value
    have htake : trailer.line.take trailer.name.length = trailer.name := by simp [Trailer.line]
    rw [hcolon, Option.any_some, htake, h.notForbidden, Bool.and_false]
  rw [run_lineBytes (by simp [ReadsLines, hstate]) hempty hline hfits]
  simp only [handleLine, hstate, if_neg hne, parseTrailerLine, hallowed, Bool.false_eq_true, if_false,
    parseFieldLine_trailer h hsize, setTrailers]

/-- A trailer section, by induction over its fields. -/
theorem run_trailers {p : Core} (hstate : p.state = .Trailers) (hempty : p.lineBuffer = [])
    {trailers : List Trailer} (hallowed : ∀ trailer ∈ trailers, trailer.Allowed)
    (hfits : ∀ trailer ∈ trailers, trailer.Fits)
    (hsize : p.response.trailers.size + trailers.length ≤ kMaxTrailerFields) :
    reader.run p (encodeTrailers trailers) =
      (p.setTrailers ⟨p.response.trailers.fields ++ trailers.map Trailer.field⟩, []) := by
  induction trailers generalizing p with
  | nil => simp [encodeTrailers, setTrailers]
  | cons trailer trailers ih =>
    rw [length_cons] at hsize
    have hfirst := run_trailer hstate hempty (hallowed trailer (by simp)) (hfits trailer (by simp))
      (by omega)
    have hlater := ih (p := p.setTrailers ⟨p.response.trailers.fields ++ [trailer.field]⟩) hstate hempty
      (fun t ht => hallowed t (mem_cons_of_mem _ ht))
      (fun t ht => hfits t (mem_cons_of_mem _ ht))
      (by
        simp only [setTrailers, JobHttpHeader.size, length_append, length_singleton] at hsize ⊢
        omega)
    have hwhole := run_append_run hfirst hlater
    simpa [encodeTrailers, setTrailers] using hwhole

theorem takeBody_trailers (p : Core) (data : Bytes) :
    (p.takeBody data).response.trailers = p.response.trailers := by
  simp only [takeBody]
  split <;> rfl

theorem run_chunkedBody {p : Core} (hstate : p.state = .ChunkSize) (hempty : p.lineBuffer = [])
    (hreceive : p.CanReceive) (hnone : p.response.trailers = .empty) {chunks : List Chunk}
    {last : ChunkLine} {trailers : List Trailer} (hchunks : ∀ chunk ∈ chunks, chunk.Coded)
    (hchunksFit : ∀ chunk ∈ chunks, chunk.Fits) (hlast : last.Coded 0) (hlastFits : last.Fits)
    (hallowed : ∀ trailer ∈ trailers, trailer.Allowed)
    (htrailersFit : ∀ trailer ∈ trailers, trailer.Fits)
    (hsize : trailers.length ≤ kMaxTrailerFields) :
    reader.run p (chunkedBody chunks last trailers) =
      ((((p.takeBody (chunks.flatMap Chunk.data)).setRemaining 0).setTrailers
        ⟨trailers.map Trailer.field⟩).setState .Complete, []) := by
  obtain ⟨n, hbody⟩ := run_chunks hstate hempty hreceive hchunks hchunksFit
  refine run_append_run hbody ?_
  -- The last chunk has no bytes, so the trailers are next.
  have hline := run_chunkLine (p := (p.takeBody (chunks.flatMap Chunk.data)).setRemaining n) hstate
    hempty hlast hlastFits (Nat.zero_le _)
  refine run_append_run hline ?_
  have htrailers : (p.takeBody (chunks.flatMap Chunk.data)).response.trailers.fields = [] := by
    rw [takeBody_trailers, hnone]
    rfl
  have hfields := run_trailers
    (p := (((p.takeBody (chunks.flatMap Chunk.data)).setRemaining n).setRemaining 0).setState .Trailers)
    rfl hempty hallowed htrailersFit (by
      simp only [JobHttpHeader.size, setState, setRemaining, htrailers, length_nil]
      omega)
  refine run_append_run hfields ?_
  refine (run_emptyLine ?_ ?_).trans ?_
  · exact Or.inr (Or.inr (Or.inr (Or.inr rfl)))
  · exact hempty
  · simp [handleLine, setState, setTrailers, setRemaining, htrailers]

/-- What completing a header section leaves as it was, when a body follows. -/
theorem bodyHeadersComplete_kept {p p' : Core} (h : p.bodyHeadersComplete = (true, p')) :
    p'.response = p.response ∧ p'.streamed = p.streamed ∧ p'.lineBuffer = p.lineBuffer ∧
      p'.bodyBytesReceived = p.bodyBytesReceived := by
  rcases bodyHeadersComplete_ok h with ⟨-, -, -, ⟨-, rfl⟩ | ⟨-, rfl⟩⟩ | ⟨-, -, rfl⟩ | ⟨-, -, rfl⟩
  all_goals exact ⟨rfl, rfl, rfl, rfl⟩

theorem parseHeadersComplete_body {p p' : Core} (h : p.parseHeadersComplete = (true, p'))
    (hlength : p'.messageLength = .chunked ∨ ∃ n, p'.messageLength = .octets n) :
    p'.state = p'.messageLength.state ∧ p'.response = p.response ∧ p'.streamed = p.streamed ∧
      p'.lineBuffer = p.lineBuffer ∧ p'.bodyBytesReceived = p.bodyBytesReceived ∧
      p'.settings = p.settings := by
  obtain ⟨q, hq, hframed⟩ := parseHeadersComplete_ok h
  have hsettings := Framed.settings hframed hq
  cases hframed with
  | interim => simp [messageLength, resetMessage] at hlength
  | tunnel => simp [messageLength] at hlength
  | none => simp [messageLength] at hlength
  | body hbody h =>
    have hstate := (bodyHeadersComplete_length hq hbody h).2
    obtain ⟨hresponse, hstreamed, hbuffer, hreceived⟩ := bodyHeadersComplete_kept h
    cases hq with
    | absent => exact ⟨hstate, hresponse, hstreamed, hbuffer, hreceived, hsettings⟩
    | present => exact ⟨hstate, hresponse, hstreamed, hbuffer, hreceived, hsettings⟩

end JobHttpParser.Core

/-- A status line and field lines after which an empty line completes the header section. -/
structure AcceptedHead (method : HttpMethod) (mode : BodyMode) (callback : Bool) (head : Bytes)
    (q : JobHttpParser) (p : Core) : Prop where
  read : (JobHttpParser.fresh method mode callback).parse head = (.NeedMoreData, q, [])
  state : q.state = .Headers
  buffer : q.lineBuffer = []
  accepted : q.toCore.parseHeadersComplete = (true, p)

/-- The bytes of a body are where the mode has them. -/
structure Delivered (mode : BodyMode) (r : Core) (body : Bytes) : Prop where
  stored : mode = .Store → r.response.body = body
  streamed : mode = .Stream → r.streamed = body
  counted : r.bodyBytesReceived = body.length

section Head

variable {method : HttpMethod} {mode : BodyMode} {callback : Bool} {head : Bytes}
  {q : JobHttpParser} {p : Core}

/-- A call is where reading the bytes one by one gets, unless that fails. -/
theorem parse_of_run {r : Core} {data rest : Bytes}
    (hrun : reader.run (Core.fresh method mode callback) data = (r, rest)) (hstate : r.state ≠ .Error) :
    ∃ count, (JobHttpParser.fresh method mode callback).parse data = (r.resultOf, ⟨r, count⟩, rest) := by
  rcases hparse : (JobHttpParser.fresh method mode callback).parse data with
    ⟨result, ⟨core, count⟩, left⟩
  obtain ⟨-, hagree, hresult, -⟩ := parse_spec (settled_fresh method mode callback) hparse
  have hagree : Agree (core, left) (reader.run (Core.fresh method mode callback) data) := hagree
  rw [hrun] at hagree
  rcases hagree with heq | ⟨-, herror, -⟩
  · obtain ⟨rfl, rfl⟩ : core = r ∧ left = rest := by simpa using heq
    exact ⟨count, by rw [hresult]⟩
  · exact absurd herror hstate

theorem acceptedHead_of_run {core : Core}
    (hrun : reader.run (Core.fresh method mode callback) head = (core, []))
    (hstate : core.state = .Headers) (hbuffer : core.lineBuffer = [])
    (haccepted : core.parseHeadersComplete = (true, p)) :
    ∃ count, AcceptedHead method mode callback head ⟨core, count⟩ p := by
  obtain ⟨count, hparse⟩ := parse_of_run hrun (by simp [hstate])
  refine ⟨count, hparse.trans ?_, hstate, hbuffer, haccepted⟩
  simp [resultOf, hstate]

theorem AcceptedHead.run (h : AcceptedHead method mode callback head q p) :
    reader.run (Core.fresh method mode callback) (head ++ crlf) = (p, []) := by
  have hfront := ((parse_fresh h.read).2.2 (by simp [h.state])).1
  refine run_append_run hfront ?_
  have hlines : q.toCore.ReadsLines := Or.inr (Or.inl h.state)
  rw [run_emptyLine hlines h.buffer]
  have hline : q.toCore.handleLine [] = q.toCore.parseHeadersComplete := by
    simp [handleLine, h.state]
  rw [hline, h.accepted]

/-- Where a body follows, the parser waits for it with nothing of it read. -/
theorem AcceptedHead.body (h : AcceptedHead method mode callback head q p)
    (hlength : p.messageLength = .chunked ∨ ∃ n, p.messageLength = .octets n) :
    p.state = p.messageLength.state ∧ p.response = q.response ∧ p.response.body = [] ∧
      p.response.trailers = .empty ∧ p.streamed = [] ∧ p.lineBuffer = [] ∧
      p.bodyBytesReceived = 0 ∧ p.settings = (method, mode, callback) := by
  obtain ⟨hsettled, hsound, hrun⟩ := parse_fresh h.read
  obtain ⟨hbody, htrailers, hstreamed⟩ := hsound.start (Or.inr h.state)
  have hreceived := hsettled.start (Or.inr h.state)
  have hsettings := (hrun (by simp [h.state])).2
  obtain ⟨kstate, kresponse, kstreamed, kbuffer, kreceived, ksettings⟩ :=
    parseHeadersComplete_body h.accepted hlength
  refine ⟨kstate, kresponse, ?_, ?_, kstreamed.trans hstreamed, kbuffer.trans h.buffer,
    kreceived.trans hreceived, ksettings.trans hsettings⟩
  · rw [kresponse]
    exact hbody
  · rw [kresponse]
    exact htrailers

theorem canReceive_of_settings (h : p.settings = (method, mode, callback))
    (hmode : mode = .Stream → callback = true) : p.CanReceive := by
  obtain ⟨-, rfl, rfl⟩ : p.requestMethod = method ∧ p.bodyMode = mode ∧ p.bodyCallback = callback := by
    simpa [settings] using h
  exact hmode

theorem parse_error_of_run {data : Bytes}
    (hrun : (reader.run (Core.fresh method mode callback) data).1.state = .Error) :
    ((JobHttpParser.fresh method mode callback).parse data).2.1.state = .Error := by
  rcases hparse : (JobHttpParser.fresh method mode callback).parse data with ⟨result⟩
  obtain ⟨-, hagree⟩ := parse_spec (settled_fresh method mode callback) hparse
  rcases hagree with heq | ⟨herror, -⟩
  · exact (congrArg (fun x => x.1.state) heq).trans hrun
  · exact herror

/-- Bytes that complete a response are taken, and what follows is left. -/
theorem parse_complete {r : Core} {data : Bytes}
    (hrun : reader.run (Core.fresh method mode callback) data = (r, []))
    (hstate : r.state = .Complete) (rest : Bytes) :
    ∃ count, (JobHttpParser.fresh method mode callback).parse (data ++ rest) =
      (.Complete, ⟨r, count⟩, rest) := by
  have hfinal : reader.final r = true := by simp [reader, isFinal, hstate]
  have hall : reader.run (Core.fresh method mode callback) (data ++ rest) = (r, rest) :=
    (reader.run_append_of_nil hrun rest).trans (reader.run_final hfinal rest)
  obtain ⟨count, hparse⟩ := parse_of_run hall (by simp [hstate])
  refine ⟨count, hparse.trans ?_⟩
  simp [resultOf, hstate]

theorem delivered_takeBody (hmode : p.bodyMode = mode) (hbody : p.response.body = [])
    (hstreamed : p.streamed = []) (hreceived : p.bodyBytesReceived = 0) (body : Bytes) :
    Delivered mode (p.takeBody body) body := by
  subst hmode
  refine ⟨?_, ?_, ?_⟩
  · intro hmode
    simp [takeBody, hmode, hbody]
  · intro hmode
    simp [takeBody, hmode, hstreamed]
  · simp [hreceived]

/-- A chunked response completes with the bytes of its chunks, and leaves what follows. -/
theorem AcceptedHead.parse_chunked (h : AcceptedHead method mode callback head q p)
    (hlength : p.messageLength = .chunked) (hmode : mode = .Stream → callback = true)
    {chunks : List Chunk} {last : ChunkLine} {trailers : List Trailer}
    (hchunks : ∀ chunk ∈ chunks, chunk.Coded ∧ chunk.Fits) (hlast : last.Coded 0 ∧ last.Fits)
    (htrailers : ∀ trailer ∈ trailers, trailer.Allowed ∧ trailer.Fits)
    (hsize : trailers.length ≤ kMaxTrailerFields) (rest : Bytes) :
    ∃ r, (JobHttpParser.fresh method mode callback).parse
        (head ++ crlf ++ chunkedBody chunks last trailers ++ rest) = (.Complete, r, rest) ∧
      Delivered mode r.toCore (chunks.flatMap Chunk.data) ∧
      r.response.trailers = ⟨trailers.map Trailer.field⟩ := by
  obtain ⟨hstate, -, hbody, hnone, hstreamed, hempty, hreceived, hsettings⟩ := h.body (Or.inl hlength)
  rw [hlength] at hstate
  have hrun := run_append_run h.run (run_chunkedBody hstate hempty
    (canReceive_of_settings hsettings hmode) hnone (fun c hc => (hchunks c hc).1)
    (fun c hc => (hchunks c hc).2) hlast.1 hlast.2 (fun t ht => (htrailers t ht).1)
    (fun t ht => (htrailers t ht).2) hsize)
  obtain ⟨count, hparse⟩ := parse_complete hrun rfl rest
  have hdelivered := delivered_takeBody (congrArg (fun s => s.2.1) hsettings) hbody hstreamed hreceived
    (chunks.flatMap Chunk.data)
  exact ⟨_, hparse, ⟨hdelivered.stored, hdelivered.streamed, hdelivered.counted⟩, rfl⟩

/-- A chunked response with a line that does not fit is refused. -/
theorem AcceptedHead.parse_long (h : AcceptedHead method mode callback head q p)
    (hlength : p.messageLength = .chunked) {line : ChunkLine} {n : Nat} (hline : line.Coded n)
    (hlong : ¬ line.Fits) (rest : Bytes) :
    ((JobHttpParser.fresh method mode callback).parse
      (head ++ crlf ++ (line.encode ++ rest))).2.1.state = .Error := by
  obtain ⟨hstate, -, -, -, -, hempty, -⟩ := h.body (Or.inl hlength)
  rw [hlength] at hstate
  apply parse_error_of_run
  rw [reader.run_append_of_nil h.run]
  exact run_chunkLine_long hstate hempty hline hlong rest

/-- A response of a stated length completes with so many bytes, and leaves what follows. -/
theorem AcceptedHead.parse_octets (h : AcceptedHead method mode callback head q p) {body : Bytes}
    (hlength : p.messageLength = .octets body.length) (hmode : mode = .Stream → callback = true)
    (rest : Bytes) :
    ∃ r, (JobHttpParser.fresh method mode callback).parse (head ++ crlf ++ body ++ rest) =
        (.Complete, r, rest) ∧ Delivered mode r.toCore body := by
  obtain ⟨hstate, -, hbody, -, hstreamed, -, hreceived, hsettings⟩ := h.body (Or.inr ⟨_, hlength⟩)
  have hdelivered := delivered_takeBody (congrArg (fun s => s.2.1) hsettings) hbody hstreamed hreceived
    body
  rw [hlength, MessageLength.state] at hstate
  by_cases hnil : body = []
  · subst hnil
    obtain ⟨count, hparse⟩ := parse_complete h.run hstate rest
    rw [append_nil]
    refine ⟨_, hparse, ?_⟩
    exact ⟨fun _ => hbody, fun _ => hstreamed, hreceived⟩
  · rw [if_neg (by simpa using hnil)] at hstate
    have hframing : p.bodyFraming = .ContentLength ∧ p.contentLength = body.length := by
      unfold messageLength at hlength
      split at hlength <;> simp_all
    have hcontent := run_content hstate hframing.1 (canReceive_of_settings hsettings hmode) hnil
      (Nat.le_of_eq (by rw [hreceived, hframing.2, Nat.zero_add]))
    have hend : ((p.takeBody body).afterContent).state = .Complete :=
      if_pos (by rw [takeBody_bodyBytesReceived, takeBody_contentLength, hreceived, hframing.2,
        Nat.zero_add])
    obtain ⟨count, hparse⟩ := parse_complete (run_append_run h.run hcontent) hend rest
    exact ⟨_, hparse, ⟨hdelivered.stored, hdelivered.streamed, hdelivered.counted⟩⟩

end Head

/-- The framing of every accepted header section is the one that RFC 9112, section 6.3, prescribes,
but that protocol switches are framed as tunnels; bodies in chunks and bodies of a stated length
end where they end; and no ambiguous header section gets to a body. -/
theorem response_framing (method : HttpMethod) (mode : BodyMode) (callback : Bool) :
    (∀ head q p, AcceptedHead method mode callback head q p →
      if 100 ≤ q.response.code ∧ q.response.code < 200 ∧ q.response.code ≠ 101 then
        p.messageLength = .empty ∧ p.state = .StatusLine
      else
        (SwitchesProtocol method q.response.code → p.messageLength = .tunnel) ∧
        (¬ SwitchesProtocol method q.response.code →
          prescribedLength method q.response.code q.response.headers = some p.messageLength) ∧
        p.state = p.messageLength.state) ∧
    (∀ head q p, AcceptedHead method mode callback head q p → p.messageLength = .chunked →
      (mode = .Stream → callback = true) →
      ∀ (chunks : List Chunk) (last : ChunkLine) (trailers : List Trailer) (rest : Bytes),
        (∀ chunk ∈ chunks, chunk.Coded ∧ chunk.Fits) → last.Coded 0 ∧ last.Fits →
        (∀ trailer ∈ trailers, trailer.Allowed ∧ trailer.Fits) →
        trailers.length ≤ kMaxTrailerFields →
        ∃ r, (JobHttpParser.fresh method mode callback).parse
            (head ++ crlf ++ chunkedBody chunks last trailers ++ rest) = (.Complete, r, rest) ∧
          Delivered mode r.toCore (chunks.flatMap Chunk.data) ∧
          r.response.trailers = ⟨trailers.map Trailer.field⟩) ∧
    (∀ head q p, AcceptedHead method mode callback head q p →
      (mode = .Stream → callback = true) →
      ∀ body rest, p.messageLength = .octets body.length →
        ∃ r, (JobHttpParser.fresh method mode callback).parse (head ++ crlf ++ body ++ rest) =
            (.Complete, r, rest) ∧ Delivered mode r.toCore body) ∧
    (∀ data, ((JobHttpParser.fresh method mode callback).parse data).2.1.toCore.ReadsBody →
      ¬ Ambiguous ((JobHttpParser.fresh method mode callback).parse data).2.1.response.headers) := by
  refine ⟨?_, ?_, ?_, ?_⟩
  · intro head q p h
    have hsettings := ((parse_fresh h.read).2.2 (by simp [h.state])).2
    have hmethod : q.requestMethod = method := congrArg Prod.fst hsettings
    split
    · obtain ⟨hstate, hlength, -⟩ := parseHeadersComplete_interim h.accepted ‹_›
      exact ⟨hlength, hstate⟩
    · have hlength := parseHeadersComplete_length h.accepted ‹_›
      rw [hmethod] at hlength
      exact hlength
  · intro head q p h hlength hmode chunks last trailers rest hchunks hlast htrailers hsize
    exact h.parse_chunked hlength hmode hchunks hlast htrailers hsize rest
  · intro head q p h hmode body rest hlength
    exact h.parse_octets hlength hmode rest
  · intro data
    rcases hparse : (JobHttpParser.fresh method mode callback).parse data with ⟨result, r, rest⟩
    exact (parse_fresh hparse).2.1.body

def chunkedHead : Bytes := ascii "HTTP/1.1 200 OK\r\nTransfer-Encoding: chunked\r\n".toList

def switchingHead : Bytes := ascii "HTTP/1.1 101 Switching Protocols\r\n".toList

/-- The parser after the lines of a head, for a GET request and a stored body. -/
def afterHead (head : Bytes) : Core := (reader.run (Core.fresh .Get .Store false) head).1

theorem afterHead_accepted (head : Bytes)
    (hleft : (reader.run (Core.fresh .Get .Store false) head).2 = [])
    (hstate : (afterHead head).state = .Headers) (hbuffer : (afterHead head).lineBuffer = [])
    (haccepted : (afterHead head).parseHeadersComplete.1 = true) :
    ∃ count, AcceptedHead .Get .Store false head ⟨afterHead head, count⟩
      (afterHead head).parseHeadersComplete.2 :=
  acceptedHead_of_run (Prod.ext rfl hleft) hstate hbuffer (Prod.ext haccepted rfl)

theorem chunkedHead_accepted :
    ∃ count, AcceptedHead .Get .Store false chunkedHead ⟨afterHead chunkedHead, count⟩
      (afterHead chunkedHead).parseHeadersComplete.2 :=
  afterHead_accepted chunkedHead (by decide) (by decide) (by decide) (by decide)

theorem chunkedHead_length :
    (afterHead chunkedHead).parseHeadersComplete.2.messageLength = .chunked := by
  decide

def plainLine : ChunkLine := ⟨[48], []⟩

theorem plainLine_coded : plainLine.Coded 0 := ⟨by decide, Or.inl rfl, by decide⟩

/-- One chunk with an extension and one trailer, with bytes of the next response behind. -/
theorem response_framing_small :
    ∃ r, (JobHttpParser.fresh .Get .Store false).parse
        (chunkedHead ++ crlf ++ chunkedBody [⟨⟨[49], [59, 97]⟩, [120]⟩] plainLine
          [⟨[88], [32, 121]⟩] ++ [72, 84]) = (.Complete, r, [72, 84]) ∧
      Delivered .Store r.toCore [120] ∧ r.response.trailers = ⟨[⟨[120], [88], [121]⟩]⟩ := by
  obtain ⟨count, h⟩ := chunkedHead_accepted
  refine (response_framing .Get .Store false).2.1 _ _ _ h chunkedHead_length (by simp) _ _ _ _ ?_
    ⟨plainLine_coded, by decide⟩ ?_ (by decide)
  · rintro chunk (_ | ⟨_, ⟨⟩⟩)
    exact ⟨⟨⟨by decide, Or.inr ⟨_, rfl⟩, by decide⟩, by simp⟩, by decide, by decide⟩
  · rintro trailer (_ | ⟨_, ⟨⟩⟩)
    exact ⟨⟨by decide, by decide, by decide⟩, by decide⟩

/-- A chunk of one byte with an extension as long as the line buffer. -/
def longChunk : Chunk := ⟨⟨[49], 59 :: List.replicate kLineBufferSize 97⟩, [120]⟩

theorem longChunk_coded : longChunk.Coded := by
  refine ⟨⟨by decide, Or.inr ⟨_, rfl⟩, ?_⟩, by simp [longChunk]⟩
  rw [longChunk, mem_cons, mem_replicate]
  rintro (h | ⟨h⟩)
  · simp at h
  · simp at h

theorem longChunk_not_fits : ¬ longChunk.line.Fits := by
  simp only [ChunkLine.Fits, longChunk, length_cons, length_replicate]
  omega

/-- A protocol switch is framed as a tunnel where the section prescribes no body, and a chunked body
whose extension does not fit in the line buffer is refused. -/
theorem framing_limits :
    (∃ q p, AcceptedHead .Get .Store false switchingHead q p ∧
      prescribedLength .Get q.response.code q.response.headers = some .empty ∧
      p.messageLength = .tunnel) ∧
    (∃ q p, AcceptedHead .Get .Store false chunkedHead q p ∧ p.messageLength = .chunked ∧
      longChunk.Coded ∧ plainLine.Coded 0 ∧
      ((JobHttpParser.fresh .Get .Store false).parse
        (chunkedHead ++ crlf ++ chunkedBody [longChunk] plainLine [])).2.1.state = .Error) := by
  constructor
  · have hlength : prescribedLength .Get (afterHead switchingHead).response.code
        (afterHead switchingHead).response.headers = some .empty := by decide
    obtain ⟨count, h⟩ := afterHead_accepted switchingHead (by decide)
      (by decide) (by decide) (by decide)
    exact ⟨_, _, h, hlength, by decide⟩
  · obtain ⟨count, h⟩ := chunkedHead_accepted
    refine ⟨_, _, h, chunkedHead_length, longChunk_coded, plainLine_coded, ?_⟩
    rw [chunkedBody, flatMap_singleton, Chunk.encode, append_assoc longChunk.line.encode]
    exact h.parse_long chunkedHead_length longChunk_coded.line longChunk_not_fits _

end JobNet
