import OddBuilder.Net.Split

/-!
# The framing of a response

The length of a response body as RFC 9112, section 6.3, has it determined from the
request method, the status code and the header fields, compared with the framing
that `parseHeadersComplete` selects. The parser gives two kinds of response that
end with their header section the framing Tunnel, because the connection goes on
as something else after them: 101, and every 2xx answer to CONNECT.

A header section whose fields disagree about the length never gets to a body.
-/

namespace JobNet

open JobHttpHeader JobHttpParser Core

variable {members : List Bytes} {n : Nat}

/-- How the end of a response body is found. -/
inductive MessageLength
  | empty | tunnel | chunked | untilClose | octets (n : Nat)
deriving DecidableEq

/-- A decimal number of any size. -/
def decimal (member : Bytes) : Option Nat :=
  if member = [] then none else digitsFrom 10 0 member

/-- The value that all members of a list have. -/
def commonDecimal : List Bytes → Option Nat
  | [] => none
  | member :: members => (decimal member).filter fun n => members.all fun m => decimal m = some n

def chunkedIsFinal (members : List Bytes) : Bool :=
  members.getLast?.any fun member => equalsIgnoreCase (codingOf (trimOws member)) chunkedName

/-- The length of a response body in the order of precedence of the section; `none` where the
framing is invalid. -/
def prescribedLength (method : HttpMethod) (code : Nat) (headers : JobHttpHeader) :
    Option MessageLength :=
  if method = .Head ∨ (100 ≤ code ∧ code < 200) ∨ code = 204 ∨ code = 304 then some .empty
  else if method = .Connect ∧ 200 ≤ code ∧ code < 300 then some .tunnel
  else if headers.contains transferEncodingName then
    some (if chunkedIsFinal (headers.listMembers transferEncodingName) then .chunked else .untilClose)
  else if headers.contains contentLengthName then
    (commonDecimal (headers.listMembers contentLengthName)).map .octets
  else some .untilClose

/-- A response that ends with its header section and is followed by another protocol. -/
def SwitchesProtocol (method : HttpMethod) (code : Nat) : Prop :=
  code = 101 ∨ (method = .Connect ∧ code = 204)

namespace JobHttpParser.Core

/-- The length that the framing of the parser stands for. -/
def messageLength (p : Core) : MessageLength :=
  match p.bodyFraming with
  | .None => .empty
  | .Tunnel => .tunnel
  | .Chunked => .chunked
  | .CloseDelimited => .untilClose
  | .ContentLength => .octets p.contentLength

end JobHttpParser.Core

/-- The state that reads a body of such a length. -/
def MessageLength.state : MessageLength → State
  | .empty | .tunnel => .Complete
  | .chunked => .ChunkSize
  | .untilClose => .Body
  | .octets n => if n = 0 then .Complete else .Body

theorem fromChars_decimal {max : Nat} {member : Bytes} (h : fromChars 10 max member = some n) :
    decimal member = some n := by
  unfold fromChars at h
  split at h
  · simp at h
  · rw [decimal, if_neg ‹_›]
    exact (Option.filter_eq_some_iff.mp h).1

theorem commonLength_some {parsedLength : Option Nat}
    (h : commonLength (some n) members = .ok parsedLength) :
    parsedLength = some n ∧ ∀ member ∈ members, decimal member = some n := by
  induction members with
  | nil =>
    obtain rfl : some n = parsedLength := by simpa [commonLength] using h
    simp
  | cons member members ih =>
    unfold commonLength at h
    split at h
    · simp at h
    · split at h
      · simp at h
      · rename_i value hvalue
        simp only at h
        split at h
        · simp at h
        · rename_i hsame
          obtain rfl : value = n := by simpa using hsame
          obtain ⟨hparsed, hall⟩ := ih h
          refine ⟨hparsed, ?_⟩
          rintro m (_ | ⟨_, hm⟩)
          · exact fromChars_decimal hvalue
          · exact hall m hm

/-- The length of a header section is the value that all members have. -/
theorem commonLength_ok {parsedLength : Option Nat} (hne : members ≠ [])
    (h : commonLength none members = .ok parsedLength) :
    ∃ n, parsedLength = some n ∧ ∀ member ∈ members, decimal member = some n := by
  cases members with
  | nil => exact absurd rfl hne
  | cons member members =>
    unfold commonLength at h
    split at h
    · simp at h
    · split at h
      · simp at h
      · rename_i value hvalue
        obtain ⟨hparsed, hall⟩ := commonLength_some h
        refine ⟨value, hparsed, ?_⟩
        rintro m (_ | ⟨_, hm⟩)
        · exact fromChars_decimal hvalue
        · exact hall m hm

theorem commonDecimal_eq (hne : members ≠ []) (h : ∀ member ∈ members, decimal member = some n) :
    commonDecimal members = some n := by
  obtain ⟨member, members, rfl⟩ := List.exists_cons_of_ne_nil hne
  rw [commonDecimal, h member (by simp)]
  simp only [Option.filter_some, ite_eq_left_iff]
  intro hnot
  refine absurd ?_ hnot
  simpa using fun m hm => h m (List.mem_cons_of_mem _ hm)

theorem finalChunked_ok {sawChunked : Bool} (h : finalChunked false members = .ok sawChunked) :
    sawChunked = chunkedIsFinal members := by
  induction members with
  | nil =>
    obtain rfl : false = sawChunked := by simpa [finalChunked] using h
    rfl
  | cons text members ih =>
    unfold finalChunked at h
    simp only at h
    split at h
    · simp at h
    · split at h
      · simp at h
      · split at h
        · simp at h
        · split at h
          · rename_i hchunked
            simp only [Bool.false_eq_true, if_false] at h
            split at h
            · simp at h
            · rename_i hlast
              split at h
              · simp at h
              · obtain rfl : members = [] := by simpa using hlast
                obtain rfl : true = sawChunked := by simpa [finalChunked] using h
                simpa [chunkedIsFinal] using hchunked.symm
          · rename_i hchunked
            rw [ih h]
            cases members with
            | nil => simpa [chunkedIsFinal] using hchunked
            | cons member members => simp [chunkedIsFinal]

theorem listMembers_eq_nil {headers : JobHttpHeader} {name : Bytes}
    (h : headers.contains name = false) : headers.listMembers name = [] := by
  have hnone : (headers.fields.filter fun f => equalsIgnoreCase f.name name) = [] := by
    rw [List.filter_eq_nil_iff]
    intro f hf hname
    have hany : headers.contains name = true := List.any_eq_true.mpr ⟨f, hf, hname⟩
    exact absurd (hany.symm.trans h) (by simp)
  rw [listMembers, hnone]
  rfl

namespace JobHttpParser.Core

/-- A measured header section has the length that its fields prescribe. -/
theorem Measured.length {p q : Core} (h : p.Measured q) :
    q.hasContentLength = p.response.headers.contains contentLengthName ∧
      q.response = p.response ∧ q.requestMethod = p.requestMethod ∧
      (q.hasContentLength = true →
        commonDecimal (p.response.headers.listMembers contentLengthName) = some q.contentLength ∧
        ∀ member ∈ p.response.headers.listMembers contentLengthName,
          decimal member = some q.contentLength) := by
  cases h with
  | absent h => exact ⟨h.symm, rfl, rfl, by simp⟩
  | present h hparsed hne =>
    obtain ⟨n, rfl, hall⟩ := commonLength_ok hne hparsed
    exact ⟨h.symm, rfl, rfl, fun _ => ⟨commonDecimal_eq hne hall, hall⟩⟩

/-- The framing of a response that may have a body. -/
theorem bodyHeadersComplete_length {p q p' : Core} (hq : p.Measured q) (hbody : ¬ q.Bodyless)
    (h : q.bodyHeadersComplete = (true, p')) :
    prescribedLength p.requestMethod p.response.code p.response.headers = some p'.messageLength ∧
      p'.state = p'.messageLength.state := by
  obtain ⟨hlength, hresponse, hmethod, hcommon⟩ := hq.length
  rw [Bodyless, hresponse, hmethod] at hbody
  have hempty : ¬ (p.requestMethod = .Head ∨ (100 ≤ p.response.code ∧ p.response.code < 200) ∨
      p.response.code = 204 ∨ p.response.code = 304) := by tauto
  have htunnel : ¬ (p.requestMethod = .Connect ∧ 200 ≤ p.response.code ∧
      p.response.code < 300) := by tauto
  rw [prescribedLength, if_neg hempty, if_neg htunnel]
  rcases bodyHeadersComplete_ok h with ⟨hte, -, -, ⟨hsaw, rfl⟩ | ⟨hsaw, rfl⟩⟩ | ⟨hte, hcl, rfl⟩ |
      ⟨hte, hcl, rfl⟩
  · rw [hresponse] at hte hsaw
    simp [hte, ← finalChunked_ok hsaw, messageLength, MessageLength.state]
  · rw [hresponse] at hte hsaw
    simp [hte, ← finalChunked_ok hsaw, messageLength, MessageLength.state]
  · rw [hresponse] at hte
    have hfield : p.response.headers.contains contentLengthName = true := hlength.symm.trans hcl
    simp [hte, hfield, (hcommon hcl).1, messageLength, MessageLength.state]
  · rw [hresponse] at hte
    have hfield : p.response.headers.contains contentLengthName = false := hlength.symm.trans hcl
    simp [hte, hfield, messageLength, MessageLength.state]

/-- The framing of every accepted header section is the prescribed one, but for the responses after
which the connection is used for something else. -/
theorem parseHeadersComplete_length {p p' : Core} (h : p.parseHeadersComplete = (true, p'))
    (hfinal : ¬ (100 ≤ p.response.code ∧ p.response.code < 200 ∧ p.response.code ≠ 101)) :
    (SwitchesProtocol p.requestMethod p.response.code → p'.messageLength = .tunnel) ∧
      (¬ SwitchesProtocol p.requestMethod p.response.code →
        prescribedLength p.requestMethod p.response.code p.response.headers =
          some p'.messageLength) ∧
      p'.state = p'.messageLength.state := by
  obtain ⟨q, hq, hframed⟩ := parseHeadersComplete_ok h
  clear h
  obtain ⟨-, hresponse, hmethod, -⟩ := hq.length
  cases hframed with
  | interim hcode h101 =>
    rw [hresponse] at hcode h101
    exact absurd ⟨hcode.1, hcode.2, h101⟩ hfinal
  | tunnel h =>
    rw [hresponse, hmethod] at h
    refine ⟨fun _ => rfl, ?_, rfl⟩
    intro hswitch
    have hconnect : p.requestMethod = .Connect ∧ 200 ≤ p.response.code ∧ p.response.code < 300 := by
      rcases h with h | h
      · exact absurd (Or.inl h) hswitch
      · exact h
    have hcode : p.response.code ≠ 204 := fun hcode => hswitch (Or.inr ⟨hconnect.1, hcode⟩)
    have hempty : ¬ (p.requestMethod = .Head ∨ (100 ≤ p.response.code ∧ p.response.code < 200) ∨
        p.response.code = 204 ∨ p.response.code = 304) := by
      rw [hconnect.1]
      simp only [reduceCtorEq, false_or]
      omega
    rw [prescribedLength, if_neg hempty, if_pos hconnect]
    rfl
  | none h hcode =>
    rw [hresponse, hmethod] at h
    rw [hresponse] at hcode
    have hempty : p.requestMethod = .Head ∨ (100 ≤ p.response.code ∧ p.response.code < 200) ∨
        p.response.code = 204 ∨ p.response.code = 304 := by tauto
    refine ⟨?_, ?_, rfl⟩
    · rintro (h101 | ⟨hconnect, h204⟩)
      · omega
      · rcases h with h | ⟨h, -⟩
        · rw [hconnect] at h
          simp at h
        · exact absurd hconnect h
        · omega
    · intro _
      rw [prescribedLength, if_pos hempty]
      rfl
  | body hbody h =>
    obtain ⟨hlength, hstate⟩ := bodyHeadersComplete_length hq hbody h
    refine ⟨?_, fun _ => hlength, hstate⟩
    rw [Bodyless, hresponse] at hbody
    rintro (h101 | ⟨hconnect, h204⟩)
    · exact absurd (Or.inl ⟨by omega, by omega⟩) hbody
    · exact absurd (Or.inr (Or.inr (Or.inr (Or.inl h204)))) hbody

/-- An interim response is dropped, and the next response read. -/
theorem parseHeadersComplete_interim {p p' : Core} (h : p.parseHeadersComplete = (true, p'))
    (hcode : 100 ≤ p.response.code ∧ p.response.code < 200 ∧ p.response.code ≠ 101) :
    p'.state = .StatusLine ∧ p'.messageLength = .empty ∧ p'.response = .cleared := by
  obtain ⟨q, hq, hframed⟩ := parseHeadersComplete_ok h
  clear h
  obtain ⟨-, hresponse, -⟩ := hq.length
  cases hframed with
  | interim => exact ⟨rfl, rfl, rfl⟩
  | tunnel h =>
    rw [hresponse] at h
    omega
  | none h hinterim =>
    rw [hresponse] at hinterim
    exact absurd ⟨hcode.1, hcode.2.1⟩ hinterim
  | body hbody h =>
    rw [Bodyless, hresponse] at hbody
    exact absurd (Or.inl ⟨hcode.1, hcode.2.1⟩) hbody

end JobHttpParser.Core

/-- Both framing fields are there, or two values of Content-Length differ. -/
def Ambiguous (headers : JobHttpHeader) : Prop :=
  (headers.contains transferEncodingName = true ∧ headers.contains contentLengthName = true) ∨
    ∃ a ∈ headers.listMembers contentLengthName, ∃ b ∈ headers.listMembers contentLengthName,
      decimal a ≠ decimal b

namespace JobHttpParser.Core

variable {p p' q : Core}

/-- A state that reads a body or what belongs to its coding. -/
def ReadsBody (p : Core) : Prop :=
  p.state = .Body ∨ p.state = .ChunkSize ∨ p.state = .ChunkData ∨ p.state = .ChunkDataEnd ∨
    p.state = .Trailers

/-- Before the body nothing of it is there, and a body comes after an unambiguous header section. -/
structure Sound (p : Core) : Prop where
  start : p.state = .StatusLine ∨ p.state = .Headers →
    p.response.body = [] ∧ p.response.trailers = .empty ∧ p.streamed = []
  body : p.ReadsBody → ¬ Ambiguous p.response.headers

theorem sound_of_final (h : p.state = .Complete ∨ p.state = .Error) : p.Sound where
  start hp := by rcases h with h | h <;> simp [h] at hp
  body hp := by rcases h with h | h <;> simp [ReadsBody, h] at hp

theorem sound_fresh (method : HttpMethod) (mode : BodyMode) (callback : Bool) :
    (fresh method mode callback).Sound where
  start _ := ⟨rfl, rfl, rfl⟩
  body hp := by simp [ReadsBody, fresh] at hp

theorem Measured.unambiguous (h : p.Measured q) (hbody : q.bodyHeadersComplete = (true, p')) :
    ¬ Ambiguous p'.response.headers := by
  obtain ⟨hlength, hresponse, -, hcommon⟩ := h.length
  have hheaders : p'.response.headers = p.response.headers := by
    rcases bodyHeadersComplete_ok hbody with ⟨-, -, -, ⟨-, rfl⟩ | ⟨-, rfl⟩⟩ | ⟨-, -, rfl⟩ | ⟨-, -, rfl⟩
    all_goals exact congrArg JobHttpResponse.headers hresponse
  rw [hheaders]
  rintro (⟨hte, hcl⟩ | ⟨a, ha, b, hb, hab⟩)
  · rcases bodyHeadersComplete_ok hbody with ⟨-, hnone, -⟩ | ⟨hnone, -⟩ | ⟨hnone, -⟩
    · exact absurd (hcl.symm.trans (hlength.symm.trans hnone)) (by simp)
    all_goals
      rw [hresponse] at hnone
      exact absurd (hte.symm.trans hnone) (by simp)
  · cases hcl : p.response.headers.contains contentLengthName with
    | false =>
      rw [listMembers_eq_nil hcl] at ha
      simp at ha
    | true =>
      have hall := (hcommon (hlength.trans hcl)).2
      exact hab ((hall a ha).trans (hall b hb).symm)

theorem Framed.sound (h : q.Framed p') (hq : p.Measured q) (hp : p.streamed = []) : p'.Sound := by
  cases h with
  | interim hcode h101 =>
    have hstreamed : q.streamed = [] := by
      cases hq with
      | absent => exact hp
      | present => exact hp
    exact ⟨fun _ => ⟨rfl, rfl, hstreamed⟩, by simp [ReadsBody, resetMessage]⟩
  | tunnel h => exact sound_of_final (Or.inl rfl)
  | none h hcode => exact sound_of_final (Or.inl rfl)
  | body hbody h =>
    refine ⟨?_, fun _ => hq.unambiguous h⟩
    intro hstate
    have hlength := (bodyHeadersComplete_length hq hbody h).2
    rw [hlength] at hstate
    cases hmessage : p'.messageLength with
    | octets n =>
      rw [hmessage] at hstate
      simp only [MessageLength.state] at hstate
      split at hstate <;> simp at hstate
    | _ => simp [hmessage, MessageLength.state] at hstate

theorem Handled.sound (h : p.Handled p') (hp : p.Sound) : p'.Sound := by
  cases h with
  | error h => exact sound_of_final (Or.inr h)
  | statusLine hstate => exact ⟨fun _ => hp.start (Or.inl hstate), by simp [ReadsBody]⟩
  | header hstate => exact ⟨hp.start, by simp [ReadsBody, hstate]⟩
  | headersComplete hstate hq h => exact h.sound hq (hp.start (Or.inr hstate)).2.2
  | chunkSize hstate n =>
    have hheaders := hp.body (Or.inr (Or.inl hstate))
    refine ⟨?_, fun _ => hheaders⟩
    intro hstart
    split at hstart <;> simp at hstart
  | chunkDataEnd hstate =>
    have hheaders := hp.body (by simp [ReadsBody, hstate])
    exact ⟨by simp, fun _ => hheaders⟩
  | trailer hstate => exact ⟨by simp [hstate], fun _ => hp.body (by simp [ReadsBody, hstate])⟩
  | trailersEnd hstate => exact sound_of_final (Or.inl rfl)

theorem takeBody_headers (p : Core) (data : Bytes) :
    (p.takeBody data).response.headers = p.response.headers := by
  simp only [takeBody]
  split <;> rfl

theorem Fed.sound (h : p.Fed p') (hp : p.Sound) : p'.Sound := by
  cases h with
  | error h => exact sound_of_final (Or.inr h)
  | buffer hlines hroom => exact ⟨hp.start, hp.body⟩
  | line hlines h => exact h.sound ⟨hp.start, hp.body⟩
  | close hstate hframing value =>
    refine ⟨by simp [hstate], fun _ => ?_⟩
    rw [takeBody_headers]
    exact hp.body (Or.inl hstate)
  | content hstate hframing hlength value =>
    have hheaders := hp.body (Or.inl hstate)
    rw [← takeBody_headers p [value]] at hheaders
    refine ⟨?_, fun _ => hheaders⟩
    intro hstart
    simp only [afterContent, takeBody_state, hstate] at hstart
    split at hstart <;> simp at hstart
  | chunk hstate value =>
    have hheaders := hp.body (by simp [ReadsBody, hstate])
    rw [← takeBody_headers p [value]] at hheaders
    refine ⟨?_, fun _ => hheaders⟩
    intro hstart
    simp only [afterChunk, takeBody_state, hstate] at hstart
    split at hstart <;> simp at hstart

def settings (p : Core) : HttpMethod × BodyMode × Bool :=
  (p.requestMethod, p.bodyMode, p.bodyCallback)

theorem Framed.settings (h : q.Framed p') (hq : p.Measured q) : p'.settings = p.settings := by
  have hmeasured : q.settings = p.settings := by
    cases hq with
    | absent => rfl
    | present => rfl
  rw [← hmeasured]
  cases h with
  | interim => rfl
  | tunnel => rfl
  | none => rfl
  | body hbody h =>
    rcases bodyHeadersComplete_ok h with ⟨-, -, -, ⟨-, rfl⟩ | ⟨-, rfl⟩⟩ | ⟨-, -, rfl⟩ | ⟨-, -, rfl⟩
    all_goals rfl

theorem Handled.settings (h : p.Handled p') (hstate : p'.state ≠ .Error) :
    p'.settings = p.settings := by
  cases h with
  | error h => exact absurd h hstate
  | headersComplete _ hq h => exact h.settings hq
  | _ => rfl

theorem Fed.settings (h : p.Fed p') (hstate : p'.state ≠ .Error) : p'.settings = p.settings := by
  cases h with
  | error h => exact absurd h hstate
  | line _ h => exact h.settings hstate
  | _ => rfl

/-- From a fresh parser every state is settled and sound, and has the parser's settings. -/
theorem run_fresh (method : HttpMethod) (mode : BodyMode) (callback : Bool) (data : Bytes) :
    (reader.run (fresh method mode callback) data).1.Settled ∧
      (reader.run (fresh method mode callback) data).1.Sound ∧
      ((reader.run (fresh method mode callback) data).1.state ≠ .Error →
        (reader.run (fresh method mode callback) data).1.settings = (method, mode, callback)) := by
  refine reader.run_invariant
    (fun p => p.Settled ∧ p.Sound ∧ (p.state ≠ .Error → p.settings = (method, mode, callback))) ?_
    ⟨settled_fresh method mode callback, sound_fresh method mode callback, fun _ => rfl⟩ data
  rintro p value ⟨hsettled, hsound, hsettings⟩ hfinal
  have hfed := feed_fed hsettled hfinal value
  refine ⟨hfed.settled hsettled hfinal, hfed.sound hsound, ?_⟩
  intro hstate
  refine (Fed.settings hfed hstate).trans (hsettings ?_)
  intro herror
  simp [reader, isFinal, herror] at hfinal

end JobHttpParser.Core

/-- A call on a fresh parser leaves it settled and sound, with its settings unless it failed. -/
theorem JobHttpParser.parse_fresh {p : JobHttpParser} {method : HttpMethod} {mode : BodyMode}
    {callback : Bool} {data rest : Bytes} {result : ParseResult}
    (h : (fresh method mode callback).parse data = (result, p, rest)) :
    p.toCore.Settled ∧ p.toCore.Sound ∧
      (p.state ≠ .Error → reader.run (Core.fresh method mode callback) data = (p.toCore, rest) ∧
        p.toCore.settings = (method, mode, callback)) := by
  obtain ⟨-, hagree, -, hsettled, -⟩ := parse_spec (settled_fresh method mode callback) h
  refine ⟨hsettled, ?_⟩
  rcases hagree with heq | ⟨herror, -⟩
  · have heq : reader.run (Core.fresh method mode callback) data = (p.toCore, rest) := heq.symm
    have hrun := run_fresh method mode callback data
    rw [heq] at hrun
    exact ⟨hrun.2.1, fun hstate => ⟨heq, hrun.2.2 hstate⟩⟩
  · exact ⟨sound_of_final (Or.inr herror), fun hstate => absurd herror hstate⟩

end JobNet
