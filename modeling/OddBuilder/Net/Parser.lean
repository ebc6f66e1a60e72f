import OddBuilder.Net.Header

/-!
# The response parser

`JobHttpParser` reads one HTTP response from the bytes of a connection, however
the connection cuts them. A call takes what it can from the front of its data and
leaves the rest: lines end in CR LF and are read in place when the data holds the
whole line, otherwise through a buffer of 8192 bytes.

The callback of the stream mode is modelled by the bytes it has been given; it
does not throw, and storing a body does not run out of memory.
-/

namespace JobNet

open JobHttpHeader

inductive HttpMethod
  | Get | Head | Post | Put | Delete | Patch | Options | Connect | Trace | Custom
deriving DecidableEq

structure JobHttpResponse where
  code : Nat
  reasonPhrase : Bytes
  headers : JobHttpHeader
  trailers : JobHttpHeader
  body : Bytes
deriving DecidableEq

/-- A response after `clear`. -/
def JobHttpResponse.cleared : JobHttpResponse := ⟨0, [], .empty, .empty, []⟩

namespace JobHttpParser

def kLineBufferSize : Nat := 8192
def kMaxHeaderFields : Nat := 128
def kMaxTrailerFields : Nat := 32

inductive State
  | StatusLine | Headers | Body | ChunkSize | ChunkData | ChunkDataEnd | Trailers | Complete | Error
deriving DecidableEq

inductive ParseResult
  | NeedMoreData | Complete | Error
deriving DecidableEq

inductive BodyMode
  | Store | Stream | Discard
deriving DecidableEq

inductive BodyFraming
  | None | ContentLength | Chunked | CloseDelimited | Tunnel
deriving DecidableEq

/-- The members of the parser that its loop reads or changes. -/
structure Core where
  state : State
  bodyMode : BodyMode
  bodyFraming : BodyFraming
  requestMethod : HttpMethod
  response : JobHttpResponse
  /-- The filled part of the line buffer. -/
  lineBuffer : Bytes
  bodyBytesReceived : Nat
  contentLength : Nat
  chunkBytesRemaining : Nat
  httpMajor : Nat
  httpMinor : Nat
  hasContentLength : Bool
  /-- Whether a body callback is set. -/
  bodyCallback : Bool
  /-- What the body callback has been given. -/
  streamed : Bytes
  lastError : String
deriving DecidableEq

end JobHttpParser

open JobHttpParser

structure JobHttpParser extends Core where
  bytesReceived : Nat
deriving DecidableEq

namespace JobHttpParser

/-- A parser that has read nothing, with its settings. -/
def Core.fresh (method : HttpMethod) (mode : BodyMode) (callback : Bool) : Core where
  state := .StatusLine
  bodyMode := mode
  bodyFraming := .None
  requestMethod := method
  response := .cleared
  lineBuffer := []
  bodyBytesReceived := 0
  contentLength := 0
  chunkBytesRemaining := 0
  httpMajor := 0
  httpMinor := 0
  hasContentLength := false
  bodyCallback := callback
  streamed := []
  lastError := ""

def fresh (method : HttpMethod) (mode : BodyMode) (callback : Bool) : JobHttpParser where
  toCore := .fresh method mode callback
  bytesReceived := 0

namespace Core

variable {p' p : Core} {rest data : Bytes}

def setError (p : Core) (error : String) : Core := { p with state := .Error, lastError := error }

/-- What a parsing function that returns false leaves behind. -/
def fail (p : Core) (error : String) : Bool × Core := (false, p.setError error)

def resetMessage (p : Core) : Core :=
  { p with
    state := .StatusLine
    bodyFraming := .None
    response := .cleared
    lineBuffer := []
    bodyBytesReceived := 0
    contentLength := 0
    chunkBytesRemaining := 0
    httpMajor := 0
    httpMinor := 0
    hasContentLength := false }

/-- The end of `parseStatusLine`: what follows the version and its space. -/
def parseStatusCode (p : Core) (line : Bytes) : Bool × Core :=
  if line.length < 3 then p.fail "Invalid HTTP status code"
  else if !(line.take 3).all isDigit then p.fail "Invalid HTTP status code"
  else
    match fromChars 10 (2 ^ 32 - 1) (line.take 3) with
    | none => p.fail "Invalid HTTP status code"
    | some code =>
      if code < 100 ∨ 999 < code then p.fail "Invalid HTTP status code"
      else
        match line.drop 3 with
        | [] => (true, { p with response := { p.response with code := code, reasonPhrase := [] } })
        | c :: reasonPhrase =>
          if c ≠ 32 then p.fail "Invalid HTTP status line"
          else if reasonPhrase.any isControl then p.fail "Invalid HTTP reason phrase"
          else
            (true,
              { p with response := { p.response with code := code, reasonPhrase := reasonPhrase } })

/-- One number of the version. -/
def versionNumber (text : Bytes) : Option Nat :=
  (fromChars 10 (2 ^ 32 - 1) text).filter (· ≤ 255)

def parseStatusLine (p : Core) (line : Bytes) : Bool × Core :=
  if !(ascii ['H', 'T', 'T', 'P', '/']).isPrefixOf line then p.fail "Invalid HTTP status line"
  else
    let line := line.drop 5
    match find 46 line with
    | none => p.fail "Invalid HTTP version"
    | some dot =>
      if dot = 0 then p.fail "Invalid HTTP version"
      else
        match find 32 line with
        | none => p.fail "Invalid HTTP status line"
        | some firstSpace =>
          if firstSpace ≤ dot then p.fail "Invalid HTTP status line"
          else
            match versionNumber (line.take dot) with
            | none => p.fail "Invalid HTTP major version"
            | some major =>
              match versionNumber ((line.drop (dot + 1)).take (firstSpace - dot - 1)) with
              | none => p.fail "Invalid HTTP minor version"
              | some minor =>
                if major ≠ 1 ∨ 1 < minor then p.fail "Unsupported HTTP version"
                else
                  parseStatusCode { p with httpMajor := major, httpMinor := minor }
                    (line.drop (firstSpace + 1))

def forbiddenTrailers : List Bytes :=
  ["transfer-encoding", "content-length", "host", "trailer", "te", "connection", "keep-alive",
    "upgrade", "proxy-connection", "expect", "content-encoding", "content-type", "content-range",
    "authorization", "proxy-authorization", "www-authenticate", "proxy-authenticate", "set-cookie",
    "cookie", "cache-control", "location"].map fun name => ascii name.toList

def isForbiddenTrailer (name : Bytes) : Bool :=
  forbiddenTrailers.any fun forbidden => equalsIgnoreCase name forbidden

/-- `parseFieldLine`: the field list with the field of the line, or the error. -/
def parseFieldLine (line : Bytes) (target : JobHttpHeader) (maxFields : Nat) :
    Except String JobHttpHeader :=
  match line with
  | [] => .error "Invalid empty HTTP header line"
  | front :: _ =>
    if isOws front then .error "Obsolete folded HTTP header fields are not supported"
    else
      match find 58 line with
      | none => .error "Invalid HTTP header field"
      | some colon =>
        if colon = 0 then .error "Invalid HTTP header field"
        else if (line.drop (colon + 1)).any isControl then
          .error "Invalid control character in HTTP header field"
        else if maxFields ≤ target.size then .error "Too many HTTP header fields"
        else
          match target.append (line.take colon) (line.drop (colon + 1)) with
          | none => .error "Unable to append HTTP header field"
          | some target => .ok target

def parseHeaderLine (p : Core) (line : Bytes) : Bool × Core :=
  match parseFieldLine line p.response.headers kMaxHeaderFields with
  | .error error => p.fail error
  | .ok headers => (true, { p with response := { p.response with headers := headers } })

def parseTrailerLine (p : Core) (line : Bytes) : Bool × Core :=
  if (find 58 line).any fun colon => colon ≠ 0 && isForbiddenTrailer (line.take colon) then
    p.fail "Forbidden field in HTTP trailer section"
  else
    match parseFieldLine line p.response.trailers kMaxTrailerFields with
    | .error error => p.fail error
    | .ok trailers => (true, { p with response := { p.response with trailers := trailers } })

def contentLengthName : Bytes := ascii "content-length".toList

def transferEncodingName : Bytes := ascii "transfer-encoding".toList

def chunkedName : Bytes := ascii "chunked".toList

/-- The loop of `parseContentLength`, with the length of the members so far. -/
def commonLength (parsedLength : Option Nat) : List Bytes → Except String (Option Nat)
  | [] => .ok parsedLength
  | member :: members =>
    if member = [] then .error "Invalid empty Content-Length value"
    else
      match fromChars 10 maxSize member with
      | none => .error "Invalid Content-Length value"
      | some value =>
        match parsedLength with
        | none => commonLength (some value) members
        | some length =>
          if value ≠ length then .error "Conflicting Content-Length values"
          else commonLength (some length) members

def parseContentLength (p : Core) : Bool × Core :=
  match p.response.headers.listMembers contentLengthName with
  | [] => p.fail "Empty Content-Length field"
  | members =>
    match commonLength none members with
    | .error error => p.fail error
    | .ok parsedLength => (true, { p with contentLength := parsedLength.getD 0 })

/-- The coding of a member of Transfer-Encoding, without its parameters. -/
def codingOf (member : Bytes) : Bytes :=
  match find 59 member with
  | none => trimOws member
  | some semicolon => trimOws (member.take semicolon)

/-- The loop of `parseTransferEncoding`; a chunked coding is the last member, so it is seen once. -/
def finalChunked (sawChunked : Bool) : List Bytes → Except String Bool
  | [] => .ok sawChunked
  | text :: members =>
    let member := trimOws text
    if member = [] then .error "Invalid empty Transfer-Encoding member"
    else if codingOf member = [] then .error "Invalid Transfer-Encoding member"
    else if !isValidFieldName (codingOf member) then .error "Invalid Transfer-Encoding coding"
    else if equalsIgnoreCase (codingOf member) chunkedName then
      if sawChunked then .error "Duplicate chunked Transfer-Encoding"
      else if members ≠ [] then .error "Chunked Transfer-Encoding must be final"
      else if (find 59 member).isSome then .error "Chunked Transfer-Encoding cannot have parameters"
      else finalChunked true members
    else finalChunked sawChunked members

def parseTransferEncoding (p : Core) : Bool × Core :=
  match p.response.headers.listMembers transferEncodingName with
  | [] => p.fail "Empty Transfer-Encoding field"
  | members =>
    match finalChunked false members with
    | .error error => p.fail error
    | .ok sawChunked =>
      (true, { p with bodyFraming := if sawChunked then .Chunked else .CloseDelimited })

/-- The end of `parseHeadersComplete`: the framing of a response that may have a body. -/
def bodyHeadersComplete (p : Core) : Bool × Core :=
  if p.response.headers.contains transferEncodingName then
    match p.parseTransferEncoding with
    | (false, p) => (false, p)
    | (true, p) =>
      if p.hasContentLength then p.fail "Both Transfer-Encoding and Content-Length present"
      else (true, { p with state := if p.bodyFraming = .Chunked then .ChunkSize else .Body })
  else if p.hasContentLength then
    (true,
      { p with
        bodyFraming := .ContentLength
        state := if p.contentLength = 0 then .Complete else .Body })
  else (true, { p with bodyFraming := .CloseDelimited, state := .Body })

/-- The middle of `parseHeadersComplete`, after Content-Length has been read. -/
def frameMessage (p : Core) : Bool × Core :=
  if 100 ≤ p.response.code ∧ p.response.code < 200 then
    if p.response.code = 101 then (true, { p with bodyFraming := .Tunnel, state := .Complete })
    else (true, p.resetMessage)
  else if p.requestMethod = .Head then (true, { p with bodyFraming := .None, state := .Complete })
  else if p.requestMethod = .Connect ∧ 200 ≤ p.response.code ∧ p.response.code < 300 then
    (true, { p with bodyFraming := .Tunnel, state := .Complete })
  else if p.response.code = 204 ∨ p.response.code = 304 then
    (true, { p with bodyFraming := .None, state := .Complete })
  else p.bodyHeadersComplete

def parseHeadersComplete (p : Core) : Bool × Core :=
  let p := { p with hasContentLength := p.response.headers.contains contentLengthName }
  if p.hasContentLength then
    match p.parseContentLength with
    | (false, p) => (false, p)
    | (true, p) => p.frameMessage
  else p.frameMessage

/-- The size of a chunk line, without the extension. -/
def sizeTextOf (line : Bytes) : Bytes :=
  match find 59 line with
  | none => line
  | some semicolon => line.take semicolon

def parseChunkSize (p : Core) (line : Bytes) : Bool × Core :=
  if sizeTextOf line = [] then p.fail "Invalid empty HTTP chunk size"
  else
    match fromChars 16 maxSize (sizeTextOf line) with
    | none => p.fail "Invalid HTTP chunk size"
    | some chunkSize => (true, { p with chunkBytesRemaining := chunkSize })

def consumeBody (p : Core) (data : Bytes) : Bool × Core :=
  if data = [] then (true, p)
  else
    match p.bodyMode with
    | .Store =>
      (true,
        { p with
          response := { p.response with body := p.response.body ++ data }
          bodyBytesReceived := p.bodyBytesReceived + data.length })
    | .Stream =>
      if !p.bodyCallback then p.fail "HTTP body stream mode requires a callback"
      else
        (true,
          { p with
            streamed := p.streamed ++ data
            bodyBytesReceived := p.bodyBytesReceived + data.length })
    | .Discard => (true, { p with bodyBytesReceived := p.bodyBytesReceived + data.length })

def lineTooLong : String := "HTTP line exceeded maximum allowed size"

/-- The position of the first CR LF. -/
def findCrlf : Bytes → Option Nat
  | [] => none
  | [_] => none
  | a :: b :: data => if a = 13 ∧ b = 10 then some 0 else (findCrlf (b :: data)).map (· + 1)

/-- Whether a buffer ends in CR LF. -/
def endsLine (buffer : Bytes) : Bool := (ascii ['\r', '\n']).isSuffixOf buffer

/-- The second loop of `consumeLine`, through the buffer. -/
def bufferLine (p : Core) : Bytes → Option Bytes × Core × Bytes
  | [] => (none, p, [])
  | value :: data =>
    if kLineBufferSize ≤ p.lineBuffer.length then (none, p.setError lineTooLong, value :: data)
    else
      let buffer := p.lineBuffer ++ [value]
      if endsLine buffer then
        (some (buffer.take (buffer.length - 2)), { p with lineBuffer := [] }, data)
      else if buffer.length = kLineBufferSize then
        (none, ({ p with lineBuffer := buffer }).setError lineTooLong, data)
      else bufferLine { p with lineBuffer := buffer } data

/-- `consumeLine`: the line if there is a whole one, the parser and the data left. -/
def consumeLine (p : Core) (data : Bytes) : Option Bytes × Core × Bytes :=
  if p.lineBuffer = [] then
    match findCrlf data with
    | some i =>
      if kLineBufferSize < i + 2 then (none, p.setError lineTooLong, data)
      else (some (data.take i), p, data.drop (i + 2))
    | none => if data = [] then (none, p, data) else p.bufferLine data
  else p.bufferLine data

/-- What the states that read lines do with a line. -/
def handleLine (p : Core) (line : Bytes) : Bool × Core :=
  match p.state with
  | .StatusLine =>
    match p.parseStatusLine line with
    | (false, p) => (false, p)
    | (true, p) => (true, { p with state := .Headers })
  | .Headers => if line ≠ [] then p.parseHeaderLine line else p.parseHeadersComplete
  | .ChunkSize =>
    match p.parseChunkSize line with
    | (false, p) => (false, p)
    | (true, p) =>
      (true, { p with state := if p.chunkBytesRemaining = 0 then .Trailers else .ChunkData })
  | .ChunkDataEnd =>
    if line ≠ [] then p.fail "Invalid HTTP chunk terminator"
    else (true, { p with state := .ChunkSize })
  | .Trailers => if line = [] then (true, { p with state := .Complete }) else p.parseTrailerLine line
  | _ => (true, p)

/-- What one turn of the loop does: go round again, or return. -/
inductive Turn
  | again (p : Core) (data : Bytes)
  | done (result : ParseResult) (p : Core) (data : Bytes)

def lineTurn (p : Core) (data : Bytes) : Turn :=
  match p.consumeLine data with
  | (none, p, data) => .done (if p.state = .Error then .Error else .NeedMoreData) p data
  | (some line, p, data) =>
    match p.handleLine line with
    | (false, p) => .done .Error p data
    | (true, p) => .again p data

def contentLengthTurn (p : Core) (data : Bytes) : Turn :=
  if p.contentLength ≤ p.bodyBytesReceived then .again { p with state := .Complete } data
  else if data = [] then .done .NeedMoreData p data
  else
    let take := min (p.contentLength - p.bodyBytesReceived) data.length
    match p.consumeBody (data.take take) with
    | (false, p) => .done .Error p data
    | (true, p) =>
      .again { p with state := if p.bodyBytesReceived = p.contentLength then .Complete else p.state }
        (data.drop take)

def closeDelimitedTurn (p : Core) (data : Bytes) : Turn :=
  if data = [] then .done .NeedMoreData p data
  else
    match p.consumeBody data with
    | (false, p) => .done .Error p data
    | (true, p) => .done .NeedMoreData p []

def chunkDataTurn (p : Core) (data : Bytes) : Turn :=
  if p.chunkBytesRemaining = 0 then .again { p with state := .ChunkDataEnd } data
  else if data = [] then .done .NeedMoreData p data
  else
    let take := min p.chunkBytesRemaining data.length
    match p.consumeBody (data.take take) with
    | (false, p) => .done .Error p data
    | (true, p) =>
      .again
        { p with
          chunkBytesRemaining := p.chunkBytesRemaining - take
          state := if p.chunkBytesRemaining - take = 0 then .ChunkDataEnd else p.state }
        (data.drop take)

def turn (p : Core) (data : Bytes) : Turn :=
  match p.state with
  | .Error => .done .Error p data
  | .Complete => .done .Complete p data
  | .Body =>
    match p.bodyFraming with
    | .ContentLength => p.contentLengthTurn data
    | .CloseDelimited => p.closeDelimitedTurn data
    | _ => .done .Error (p.setError "HTTP parser entered body state without body framing") data
  | .ChunkData => p.chunkDataTurn data
  | .StatusLine | .Headers | .ChunkSize | .ChunkDataEnd | .Trailers => p.lineTurn data

theorem findCrlf_le : ∀ {data : Bytes} {i : Nat}, findCrlf data = some i → i + 2 ≤ data.length
  | [], _, h => by simp [findCrlf] at h
  | [_], _, h => by simp [findCrlf] at h
  | a :: b :: data, i, h => by
    unfold findCrlf at h
    split at h
    · obtain rfl : 0 = i := by simpa using h
      simp
    · obtain ⟨j, hj, rfl⟩ := Option.map_eq_some_iff.mp h
      have := findCrlf_le hj
      simp only [List.length_cons] at this ⊢
      omega

theorem bufferLine_shorter {line : Bytes} :
    ∀ {p : Core} {data : Bytes},
      p.bufferLine data = (some line, p', rest) → rest.length < data.length := by
  intro p data
  induction data generalizing p with
  | nil => simp [bufferLine]
  | cons value data ih =>
    intro h
    unfold bufferLine at h
    split at h
    · simp at h
    · simp only at h
      split at h
      · obtain ⟨-⟩ := h
        simp
      · split at h
        · simp at h
        · exact Nat.lt_trans (ih h) (by simp)

theorem consumeLine_shorter {line : Bytes} (h : p.consumeLine data = (some line, p', rest)) :
    rest.length < data.length := by
  unfold consumeLine at h
  split at h
  · split at h
    · rename_i i hi
      split at h
      · simp at h
      · obtain ⟨-⟩ := h
        have := findCrlf_le hi
        simp only [List.length_drop]
        omega
    · split at h
      · simp at h
      · exact bufferLine_shorter h
  · exact bufferLine_shorter h

/-- What is left to do: the data, and a body state that ends without reading any. -/
def work (p : Core) (data : Bytes) : Nat :=
  2 * data.length + if p.state = .Body ∨ p.state = .ChunkData then 1 else 0

theorem work_lt_of_shorter (h : rest.length < data.length) : p'.work rest < p.work data := by
  unfold work
  split <;> split <;> omega

theorem lineTurn_work (h : p.lineTurn data = .again p' rest) : p'.work rest < p.work data := by
  unfold lineTurn at h
  split at h
  · simp at h
  · rename_i q data' hq
    split at h
    · simp at h
    · obtain ⟨-, rfl⟩ := Turn.again.inj h
      exact work_lt_of_shorter (consumeLine_shorter hq)

theorem drop_min_shorter {n : Nat} (hn : n ≠ 0) (hdata : data ≠ []) :
    (data.drop (min n data.length)).length < data.length := by
  have := List.length_pos_of_ne_nil hdata
  simp only [List.length_drop]
  omega

theorem contentLengthTurn_work (hp : p.state = .Body)
    (h : p.contentLengthTurn data = .again p' rest) : p'.work rest < p.work data := by
  unfold contentLengthTurn at h
  split at h
  · obtain ⟨rfl, rfl⟩ := Turn.again.inj h
    simp [work, hp]
  · split at h
    · simp at h
    · simp only at h
      split at h
      · simp at h
      · obtain ⟨-, rfl⟩ := Turn.again.inj h
        exact work_lt_of_shorter (drop_min_shorter (by omega) ‹_›)

theorem chunkDataTurn_work (hp : p.state = .ChunkData) (h : p.chunkDataTurn data = .again p' rest) :
    p'.work rest < p.work data := by
  unfold chunkDataTurn at h
  split at h
  · obtain ⟨rfl, rfl⟩ := Turn.again.inj h
    simp [work, hp]
  · split at h
    · simp at h
    · simp only at h
      split at h
      · simp at h
      · obtain ⟨-, rfl⟩ := Turn.again.inj h
        exact work_lt_of_shorter (drop_min_shorter ‹_› ‹_›)

theorem turn_work (h : p.turn data = .again p' rest) : p'.work rest < p.work data := by
  unfold turn at h
  split at h
  · simp at h
  · simp at h
  · split at h
    · exact contentLengthTurn_work ‹_› h
    · unfold closeDelimitedTurn at h
      split at h
      · simp at h
      · split at h <;> simp at h
    · simp at h
  · exact chunkDataTurn_work ‹_› h
  all_goals exact lineTurn_work h

/-- The loop of `parse`. -/
def parseLoop (p : Core) (data : Bytes) : ParseResult × Core × Bytes :=
  match _h : p.turn data with
  | .done result p data => (result, p, data)
  | .again p' rest => parseLoop p' rest
termination_by p.work data
decreasing_by exact turn_work ‹_›

theorem parseLoop_done {result : ParseResult} (h : p.turn data = .done result p' rest) :
    p.parseLoop data = (result, p', rest) := by
  unfold parseLoop
  split <;> simp_all

theorem parseLoop_again (h : p.turn data = .again p' rest) :
    p.parseLoop data = p'.parseLoop rest := by
  rw [parseLoop]
  split <;> simp_all

end Core

/-- `parse`: the result, the parser and the data left unread. -/
def parse (p : JobHttpParser) (data : Bytes) : ParseResult × JobHttpParser × Bytes :=
  match p.toCore.parseLoop data with
  | (result, core, rest) =>
    (result, ⟨core, p.bytesReceived + (data.length - rest.length)⟩, rest)

def notifyEof (p : JobHttpParser) : ParseResult × JobHttpParser :=
  let error (text : String) : ParseResult × JobHttpParser :=
    (.Error, ⟨p.toCore.setError text, p.bytesReceived⟩)
  if p.state = .Error then (.Error, p)
  else if p.state = .Complete then (.Complete, p)
  else if p.bodyFraming = .CloseDelimited ∧ p.state = .Body then
    (.Complete, ⟨{ p.toCore with state := .Complete }, p.bytesReceived⟩)
  else if p.bodyFraming = .ContentLength then
    error "Unexpected EOF before Content-Length body completed"
  else if p.bodyFraming = .Chunked then error "Unexpected EOF before chunked body completed"
  else error "Unexpected EOF while parsing HTTP response"

def reset (p : JobHttpParser) : JobHttpParser where
  toCore := { p.toCore.resetMessage with lastError := "" }
  bytesReceived := 0

end JobHttpParser

end JobNet
