import OddBuilder.Net.HttpClientRuns
import OddBuilder.Net.Split

/-!
# Bytes of a response

What the transport reports of a response, and what the parser is given of it. While
the request is still being sent, a message is looked at by nobody and its bytes are
lost; all other messages of the exchange reach the parser, and however they are cut
and however the callbacks interleave, it ends as if it had read them at once.
-/

namespace JobNet

open JobHttpClient List ClientRun Option JobHttpParser

namespace JobHttpParser

open Core

variable {p q : JobHttpParser} {data rest : Bytes}

/-- A parser that wants more data has taken all it was given. -/
theorem parse_more_rest (hp : p.toCore.Settled) (h : p.parse data = (.NeedMoreData, q, rest)) :
    rest = [] := by
  obtain ⟨-, hagree, hresult, -⟩ := parse_spec hp h
  rcases hagree with heq | ⟨herror, -⟩
  · have hfinal : reader.final (reader.run p.toCore data).1 = false := by
      rw [← heq]
      exact (isFinal_eq_false_iff _).mpr hresult.symm
    have hleft := reader.run_left hfinal
    rw [← heq] at hleft
    exact hleft
  · have hstate : q.state = .Error := herror
    simp [resultOf, hstate] at hresult

theorem parse_state {result : ParseResult} (hp : p.toCore.Settled)
    (h : p.parse data = (result, q, rest)) (hresult : result ≠ .Error) : q.state ≠ .Error := by
  intro hstate
  have hspec := (parse_spec hp h).2.2.1
  rw [resultOf, hstate] at hspec
  exact hresult hspec

/-- Two calls do what one call on all the data does. -/
theorem parse_append {q' : JobHttpParser} {front : Bytes} {result : ParseResult}
    (hp : p.toCore.Settled) (hfront : p.parse front = (.NeedMoreData, q, []))
    (hdata : q.parse data = (result, q', rest)) (hresult : result ≠ .Error) :
    p.parse (front ++ data) = (result, q', rest) := by
  have hq : q.toCore.Settled := (parse_spec hp hfront).2.2.2.1
  have hstate := parse_state hq hdata hresult
  have hpieces : p.parsePieces [front, data] = (q', rest) := by
    rw [parsePieces_more [data] hfront]
    by_cases hmore : result = .NeedMoreData
    · subst hmore
      rw [parsePieces_more [] hdata]
      simp [parsePieces]
    · rw [parsePieces_end [] hdata hmore]
      simp
  have hflat : [front, data].flatten = front ++ data := by simp
  rcases hwhole : p.parse (front ++ data) with ⟨result', w, rest'⟩
  have hflatWhole : p.parse [front, data].flatten = (result', w, rest') := by rw [hflat, hwhole]
  have hagree := parsePieces_agree hp hflatWhole
  have hcount := parsePieces_bytesReceived p hp [front, data]
  rw [hpieces] at hagree hcount
  obtain ⟨-, -, hresult', -, hbytes⟩ := parse_spec hp hwhole
  have hspec := (parse_spec hq hdata).2.2.1
  rcases hagree with heq | ⟨herror, -⟩
  · have hcore : q'.toCore = w.toCore := (Prod.mk.inj heq).1
    have hrest : rest = rest' := (Prod.mk.inj heq).2
    have hpieced : q'.bytesReceived + rest.length =
        p.bytesReceived + [front, data].flatten.length := hcount hstate
    have hone := hbytes (hcore ▸ hstate)
    rw [hflat, hrest] at hpieced
    have hsame : w.bytesReceived = q'.bytesReceived := by omega
    have hw : w = q' := by
      cases w
      cases q'
      cases hcore
      cases hsame
      rfl
    rw [← hrest, hresult', hw, ← hspec]
  · exact absurd herror hstate

theorem parse_nil (hp : p.toCore.Settled) (hmore : p.resultOf = .NeedMoreData) :
    p.parse [] = (.NeedMoreData, p, []) := by
  rcases hparse : p.parse [] with ⟨result, q, rest⟩
  obtain ⟨-, hagree, hresult, -, hbytes⟩ := parse_spec hp hparse
  have hstate : p.state ≠ .Error := by
    intro herror
    simp [resultOf, herror] at hmore
  rcases hagree with heq | ⟨-, herror, -⟩
  · have hcore : q.toCore = p.toCore := (Prod.mk.inj heq).1
    have hrest : rest = [] := (Prod.mk.inj heq).2
    have hcount := hbytes (hcore ▸ hstate)
    rw [hrest] at hcount
    have hq : q = p := by
      cases p
      cases q
      cases hcore
      cases hcount
      rfl
    rw [hresult, hrest, hq, hmore]
  · exact absurd herror hstate

theorem settled_reset (p : JobHttpParser) (method : HttpMethod) :
    Core.Settled { p.reset.toCore with requestMethod := method } where
  room _ := by simp [reset, resetMessage, kLineBufferSize]
  start _ := rfl
  body hp := by simp [reset, resetMessage] at hp
  chunk hp := by simp [reset, resetMessage] at hp

theorem notifyEof_of_complete (h : p.state = .Complete) : p.notifyEof = (.Complete, p) := by
  simp [notifyEof, h]

end JobHttpParser

namespace ClientRun

/-- The guards of `handleMessage`: whether a message is given to the parser. -/
def parses (r : ClientRun) (data : Bytes) : Bool := r.client.state = .Receiving && data ≠ []

theorem handleMessage_eq (r : ClientRun) (data : Bytes) :
    r.handleMessage data =
      if r.parses data then
        if callsBack r.client.parser data then r.push (.body data r.client.parser)
        else r.parseMessage data
      else r := by
  by_cases hstate : r.client.state = .Receiving
  · by_cases hdata : data = []
    · simp [handleMessage, parses, hdata]
    · simp [handleMessage, parses, hstate]
  · simp [handleMessage, parses, hstate]

/-- The message comes while the request is still being sent. -/
def comesEarly (r : ClientRun) (data : Bytes) : Bool := r.client.state = .Sending && data ≠ []

end ClientRun

/-- A run, and what has become of the messages of its current exchange. -/
structure ReceivingRun where
  run : ClientRun
  /-- The parser as the exchange began with it. -/
  begun : JobHttpParser
  /-- The bytes that messages have brought since the connection was established. -/
  delivered : Bytes
  /-- The data of the calls of `parse`. -/
  calls : List Bytes
  /-- The messages that came while the request was being sent. -/
  early : List Bytes
  /-- The exchange was not begun while an earlier message was being handled, and nobody has
  stopped it. -/
  undisturbed : Bool

namespace ReceivingRun

/-- A new exchange. -/
def began (before r : ClientRun) : ReceivingRun where
  run := r
  begun := r.client.parser
  delivered := []
  calls := []
  early := []
  undisturbed := before.frames.all fun frame => !ClientRun.inMessage frame

/-- The transport reports a message. -/
def message (data : Bytes) (m : ReceivingRun) (r : ClientRun) : ReceivingRun :=
  if m.run.parses data then
    { m with run := r, delivered := m.delivered ++ data, calls := m.calls ++ [data] }
  else if m.run.comesEarly data then
    { m with run := r, delivered := m.delivered ++ data, early := m.early ++ [data] }
  else { m with run := r }

/-- What is to be noted of an action that leaves this run. -/
def watch (m : ReceivingRun) (r : ClientRun) : ClientRun.Action → ReceivingRun
  | .send _ _ _ => if m.run.client.isBusy then { m with run := r } else began m.run r
  | .cancel | .reset => { m with run := r, undisturbed := false }
  | .message data => m.message data r
  | _ => { m with run := r }

def step (m : ReceivingRun) (action : ClientRun.Action) : Option ReceivingRun :=
  (m.run.step action).map fun r => m.watch r action

def start (parser : JobHttpParser) : ReceivingRun where
  run := .start parser
  begun := parser
  delivered := []
  calls := []
  early := []
  undisturbed := false

inductive Reachable : ReceivingRun → Prop
  | start (parser : JobHttpParser) : Reachable (start parser)
  | step {m m' : ReceivingRun} {action : ClientRun.Action} (h : Reachable m)
      (hstep : m.step action = some m') : Reachable m'

end ReceivingRun

/-- A parser with which an exchange can begin. -/
structure Begins (begun : JobHttpParser) : Prop where
  settled : begun.toCore.Settled
  nothing : begun.parse [] = (.NeedMoreData, begun, [])

/-- No message is being handled. -/
def Quiet (frames : List Frame) : Prop := ∀ frame ∈ frames, ClientRun.inMessage frame = false

/-- Where the parser is, when the exchange began with this parser and its calls were given this
text. -/
structure Reads (begun : JobHttpParser) (text : Bytes) (client : JobHttpClient)
    (frames : List Frame) : Prop where
  begins : Begins begun
  below : Quiet frames.tail
  sends : client.state = .Connecting ∨ client.state = .Sending → text = [] ∧ client.parser = begun
  waits : client.state = .Receiving → Quiet frames →
    begun.parse text = (.NeedMoreData, client.parser, [])
  body : ∀ data before, frames.head? = some (.body data before) →
    client.state = .Receiving ∧ client.parser = before ∧
      ∃ front, text = front ++ data ∧ begun.parse front = (.NeedMoreData, before, [])
  progress : ∀ result, frames.head? = some (.progress result) →
    client.state = .Receiving ∧
      (result ≠ .Error → ∃ rest, begun.parse text = (result, client.parser, rest))
  complete : client.state = .Complete →
    (begun.parse text).2.1.notifyEof = (.Complete, client.parser)

section Reads

variable {begun : JobHttpParser} {text : Bytes} {client : JobHttpClient} {frames : List Frame}
  {r : ClientRun}
variable {frame : Frame} {result : JobHttpParser.ParseResult}

theorem Quiet.head (h : Quiet frames) (hhead : frames.head? = some frame) :
    inMessage frame = false := h frame (mem_of_mem_head? hhead)

theorem Quiet.tail (h : Quiet frames) : Quiet frames.tail :=
  fun frame hframe => h frame (mem_of_mem_tail hframe)

theorem Quiet.cons (h : Quiet frames) (hframe : inMessage frame = false) :
    Quiet (frame :: frames) := forall_mem_cons.mpr ⟨hframe, h⟩

/-- Outside of the handling of a message three things are to be known. -/
theorem Quiet.reads (h : Quiet frames) (hbegins : Begins begun)
    (hsends : client.state = .Connecting ∨ client.state = .Sending →
      text = [] ∧ client.parser = begun)
    (hwaits : client.state = .Receiving → begun.parse text = (.NeedMoreData, client.parser, []))
    (hcomplete : client.state = .Complete →
      (begun.parse text).2.1.notifyEof = (.Complete, client.parser)) :
    Reads begun text client frames where
  begins := hbegins
  below := h.tail
  sends := hsends
  waits hstate _ := hwaits hstate
  body _ _ hhead := Bool.noConfusion (h.head hhead)
  progress _ hhead := Bool.noConfusion (h.head hhead)
  complete := hcomplete

/-- After an error there is nothing to be known. -/
theorem Quiet.reads_failed (h : Quiet frames) (hbegins : Begins begun)
    (hstate : client.state = .Error) : Reads begun text client frames := by
  apply h.reads hbegins
  · intro hother
    rw [hstate] at hother
    simp at hother
  · intro hother
    exact absurd (hstate.symm.trans hother) (by decide)
  · intro hother
    exact absurd (hstate.symm.trans hother) (by decide)

theorem Quiet.reads_sending (h : Quiet frames) (hbegins : Begins begun)
    (hstate : client.state = .Connecting ∨ client.state = .Sending)
    (hparser : client.parser = begun) : Reads begun [] client frames := by
  apply h.reads hbegins
  · exact fun _ => ⟨rfl, hparser⟩
  · intro hother
    rw [hother] at hstate
    simp at hstate
  · intro hother
    rw [hother] at hstate
    simp at hstate

theorem Quiet.reads_receiving (h : Quiet frames) (hbegins : Begins begun)
    (hstate : client.state = .Receiving)
    (hparse : begun.parse text = (.NeedMoreData, client.parser, [])) :
    Reads begun text client frames := by
  apply h.reads hbegins
  · intro hother
    rw [hstate] at hother
    simp at hother
  · exact fun _ => hparse
  · intro hother
    exact absurd (hstate.symm.trans hother) (by decide)

theorem Quiet.reads_complete (h : Quiet frames) (hbegins : Begins begun)
    (hstate : client.state = .Complete)
    (hparse : (begun.parse text).2.1.notifyEof = (.Complete, client.parser)) :
    Reads begun text client frames := by
  apply h.reads hbegins
  · intro hother
    rw [hstate] at hother
    simp at hother
  · intro hother
    exact absurd (hstate.symm.trans hother) (by decide)
  · exact fun _ => hparse

theorem Reads.quiet (h : Reads begun text client frames)
    (htop : ∀ frame ∈ frames.head?, inMessage frame = false) : Quiet frames := by
  have hbelow := h.below
  cases frames with
  | nil => simp [Quiet]
  | cons frame frames => exact Quiet.cons hbelow (htop frame rfl)

@[simp] theorem client_resume (r : ClientRun) (rest : Rest) : (r.resume rest).client = r.client := by
  cases rest <;> rfl

@[simp] theorem frames_resume (r : ClientRun) (rest : Rest) : (r.resume rest).frames = r.frames := by
  cases rest <;> rfl

theorem fail_reads (hbegins : Begins begun) (hquiet : Quiet r.frames) (error : String)
    (rest : Rest) : Reads begun text (r.fail error rest).client (r.fail error rest).frames := by
  rw [fail]
  split
  · next hstate =>
    rw [client_resume, frames_resume]
    exact hquiet.reads_failed hbegins hstate
  · exact (hquiet.cons rfl).reads_failed hbegins rfl

theorem completeResponse_reads (hbegins : Begins begun) (hquiet : Quiet r.frames)
    (hparse : (begun.parse text).2.1.notifyEof = (.Complete, r.client.parser)) :
    Reads begun text r.completeResponse.client r.completeResponse.frames := by
  rw [completeResponse]
  split
  · next hstate => exact hquiet.reads_complete hbegins hstate hparse
  · exact (hquiet.cons rfl).reads_complete hbegins rfl hparse

theorem allSent_reads (hbegins : Begins begun) (hquiet : Quiet r.frames)
    (hparser : r.client.parser = begun) (writes : ClientRun.Writes) :
    Reads begun [] (r.allSent writes).client (r.allSent writes).frames := by
  rw [allSent]
  split
  · apply hquiet.reads_receiving hbegins rfl
    exact hbegins.nothing.trans (by rw [← hparser]; rfl)
  · exact fail_reads hbegins hquiet _ _

theorem waitWritable_reads (hbegins : Begins begun) (hquiet : Quiet r.frames)
    (hstate : r.client.state = .Sending) (hparser : r.client.parser = begun)
    (writes : ClientRun.Writes) :
    Reads begun [] (r.waitWritable writes).client (r.waitWritable writes).frames := by
  rw [waitWritable]
  split
  · exact hquiet.reads_sending hbegins (Or.inr hstate) hparser
  · exact fail_reads hbegins hquiet _ _

/-- However the writes go, the parser is as it was. -/
theorem sendLoop_reads (hbegins : Begins begun) (writes : ClientRun.Writes)
    (results : List ClientRun.NetIoResult) :
    ∀ r : ClientRun, Quiet r.frames → r.client.state = .Sending → r.client.parser = begun →
      Reads begun [] (r.sendLoop writes results).client (r.sendLoop writes results).frames := by
  induction results with
  | nil =>
    intro r hquiet hstate hparser
    rw [sendLoop]
    split
    · exact allSent_reads hbegins hquiet hparser writes
    · exact waitWritable_reads hbegins hquiet hstate hparser writes
  | cons result results ih =>
    intro r hquiet hstate hparser
    rw [sendLoop]
    split
    · exact allSent_reads hbegins hquiet hparser writes
    split
    · split
      · exact fail_reads hbegins hquiet _ _
      split
      · exact fail_reads hbegins hquiet _ _
      · exact ih _ hquiet hstate hparser
    · exact waitWritable_reads hbegins hquiet hstate hparser writes
    · exact fail_reads hbegins hquiet _ _
    · exact fail_reads hbegins hquiet _ _

theorem sendPendingData_reads (hbegins : Begins begun) (hquiet : Quiet r.frames)
    (hstate : r.client.state = .Sending) (hparser : r.client.parser = begun)
    (writes : ClientRun.Writes) :
    Reads begun [] (r.sendPendingData writes).client (r.sendPendingData writes).frames := by
  rw [sendPendingData, if_neg (not_not.mpr hstate)]
  exact sendLoop_reads hbegins writes _ r hquiet hstate hparser

theorem settle_reads (hbegins : Begins begun) (hquiet : Quiet r.frames)
    (hstate : r.client.state = .Receiving)
    (hparse : result ≠ .Error → ∃ rest, begun.parse text = (result, r.client.parser, rest)) :
    Reads begun text (r.settle result).client (r.settle result).frames := by
  cases result with
  | NeedMoreData =>
    obtain ⟨rest, hparse⟩ := hparse (by decide)
    obtain rfl := parse_more_rest hbegins.settled hparse
    exact hquiet.reads_receiving hbegins hstate hparse
  | Complete =>
    obtain ⟨rest, hparse⟩ := hparse (by decide)
    apply completeResponse_reads hbegins hquiet
    rw [hparse]
    apply notifyEof_of_complete
    have hspec := (parse_spec hbegins.settled hparse).2.2.1
    cases hfinal : r.client.parser.state <;> simp [JobHttpParser.Core.resultOf, hfinal] at hspec ⊢
  | Error => exact fail_reads hbegins hquiet _ _

/-- A call of `parse` that has returned. -/
theorem parsed_reads {front data rest : Bytes} {parser : JobHttpParser} (hbegins : Begins begun)
    (hquiet : Quiet r.frames) (hstate : r.client.state = .Receiving)
    (hfront : begun.parse front = (.NeedMoreData, r.client.parser, []))
    (hdata : r.client.parser.parse data = (result, parser, rest)) (before : Nat) :
    Reads begun (front ++ data) (r.parsed before result parser).client
      (r.parsed before result parser).frames := by
  have hparse : result ≠ .Error → ∃ rest, begun.parse (front ++ data) = (result, parser, rest) :=
    fun hresult => ⟨rest, parse_append hbegins.settled hfront hdata hresult⟩
  rw [parsed]
  split
  · constructor
    · exact hbegins
    · exact hquiet
    · intro hother
      change r.client.state = .Connecting ∨ r.client.state = .Sending at hother
      rw [hstate] at hother
      simp at hother
    · intro _ hframes
      exact Bool.noConfusion (hframes _ mem_cons_self)
    · intro _ _ hhead
      cases hhead
    · intro _ hhead
      cases hhead
      exact ⟨hstate, hparse⟩
    · intro hother
      exact absurd (hstate.symm.trans hother) (by decide)
  · exact settle_reads hbegins hquiet hstate hparse

theorem Reads.reports (h : Reads begun text r.client r.frames) (hreport : r.canReport = true) :
    Quiet r.frames := by
  apply h.quiet
  intro frame hframe
  have htop := (Bool.and_eq_true_iff.mp hreport).2
  cases hframes : r.frames with
  | nil =>
    rw [hframes] at hframe
    cases hframe
  | cons first frames =>
    rw [hframes] at hframe htop
    obtain rfl : first = frame := Option.some.inj hframe
    cases first with
    | connecting _ _ => rfl
    | _ => cases htop

theorem Reads.handleConnected (h : Reads begun text r.client r.frames) (hquiet : Quiet r.frames)
    (writes : ClientRun.Writes) :
    Reads begun text (r.handleConnected writes).client (r.handleConnected writes).frames := by
  rw [ClientRun.handleConnected]
  split
  · exact h
  · next hstate =>
    obtain ⟨rfl, hparser⟩ := h.sends (Or.inl (not_not.mp hstate))
    exact sendPendingData_reads (r := r.withClient { r.client with state := .Sending }) h.begins
      hquiet rfl hparser writes

theorem Reads.handleWritable (h : Reads begun text r.client r.frames) (hquiet : Quiet r.frames)
    (disarms : Bool) (writes : ClientRun.Writes) :
    Reads begun text (r.handleWritable disarms writes).client
      (r.handleWritable disarms writes).frames := by
  rw [ClientRun.handleWritable]
  split
  · exact h
  next hstate =>
  split
  · obtain ⟨rfl, hparser⟩ := h.sends (Or.inr (not_not.mp hstate))
    exact sendPendingData_reads h.begins hquiet (not_not.mp hstate) hparser writes
  · exact fail_reads h.begins hquiet _ _

/-- A message that is given to the parser comes behind what it has read. -/
theorem Reads.handleMessage (h : Reads begun text r.client r.frames) (hquiet : Quiet r.frames)
    (data : Bytes) :
    Reads begun (if r.parses data then text ++ data else text) (r.handleMessage data).client
      (r.handleMessage data).frames := by
  rw [handleMessage_eq]
  split
  · next hparses =>
    have hstate : r.client.state = .Receiving :=
      of_decide_eq_true (Bool.and_eq_true_iff.mp hparses).1
    have hfront := h.waits hstate hquiet
    split
    · constructor
      · exact h.begins
      · exact hquiet
      · intro hother
        change r.client.state = .Connecting ∨ r.client.state = .Sending at hother
        rw [hstate] at hother
        simp at hother
      · intro _ hframes
        exact Bool.noConfusion (hframes _ mem_cons_self)
      · intro _ _ hhead
        cases hhead
        exact ⟨hstate, rfl, text, rfl, hfront⟩
      · intro _ hhead
        cases hhead
      · intro hother
        exact absurd (hstate.symm.trans hother) (by decide)
    · exact parsed_reads h.begins hquiet hstate hfront rfl _
  · exact h

theorem Reads.handleDisconnected (h : Reads begun text r.client r.frames)
    (hquiet : Quiet r.frames) :
    Reads begun text r.handleDisconnected.client r.handleDisconnected.frames := by
  rw [ClientRun.handleDisconnected]
  split
  · split
    · next hstate =>
      have hparse := h.waits hstate hquiet
      have hsame : Quiet (r.withClient
          { r.client with parser := r.client.parser.notifyEof.2 }).frames := hquiet
      dsimp only
      split
      · next heof =>
        apply completeResponse_reads h.begins hsame
        rw [hparse]
        exact Prod.ext heof rfl
      · exact fail_reads h.begins hsame _ _
      · exact fail_reads h.begins hsame _ _
    · exact fail_reads h.begins hquiet _ _
  · exact h

theorem Reads.handleTransportError (h : Reads begun text r.client r.frames)
    (hquiet : Quiet r.frames) (error : String) :
    Reads begun text (r.handleTransportError error).client
      (r.handleTransportError error).frames := by
  rw [ClientRun.handleTransportError]
  split
  · exact h
  · exact fail_reads h.begins hquiet _ _

/-- Where the parser is when the frame on top, which is not of a message, returns. -/
theorem Reads.pop (h : Reads begun text client (frame :: frames))
    (hframe : inMessage frame = false) : Reads begun text client frames := by
  have hquiet : Quiet frames := h.below
  exact hquiet.reads h.begins h.sends (fun hstate => h.waits hstate (hquiet.cons hframe)) h.complete

theorem Reads.connectReturns {n : Nat} {transport : Transport} {r' : ClientRun}
    {lastErrorString : Option String} (h : Reads begun text r.client r.frames)
    (hframes : r.frames = .connecting n transport :: frames)
    (hstep : r.step (.connectReturns lastErrorString) = some r') :
    Reads begun text r'.client r'.frames := by
  rw [hframes] at h
  have hpop := h.pop rfl
  rw [step, hframes] at hstep
  cases lastErrorString with
  | none =>
    cases hstep
    exact hpop
  | some error =>
    cases hstep
    exact fail_reads h.begins h.below _ _

theorem Reads.callbackReturns {parser : JobHttpParser} {r' : ClientRun}
    (h : Reads begun text r.client (frame :: frames))
    (hreturn : returnFrom frame result parser { r with frames := frames } = some r') :
    Reads begun text r'.client r'.frames := by
  have hquiet : Quiet frames := h.below
  cases frame with
  | connecting n transport => cases hreturn
  | body data before =>
    obtain ⟨hstate, hparser, front, rfl, hfront⟩ := h.body data before rfl
    rw [returnFrom, if_pos hparser] at hreturn
    cases hreturn
    exact parsed_reads (r := { r with frames := frames }) h.begins hquiet hstate
      (hfront.trans (by rw [← hparser])) rfl _
  | progress result =>
    obtain ⟨hstate, hparse⟩ := h.progress result rfl
    cases hreturn
    exact settle_reads (r := { r with frames := frames }) h.begins hquiet hstate hparse
  | callback rest =>
    cases hreturn
    rw [client_resume, frames_resume]
    exact h.pop rfl

theorem begins_cleared (client : JobHttpClient) (request : JobHttpRequest) :
    Begins (cleared client request).parser where
  settled := settled_reset client.parser request.method
  nothing := parse_nil
    (settled_reset client.parser request.method) rfl

theorem Quiet.send_reads (hquiet : Quiet r.frames) (hidle : r.client.isBusy = false)
    (resolver sslContext : Bool) (request : JobHttpRequest) :
    Reads (r.send resolver sslContext request).client.parser []
      (r.send resolver sslContext request).client (r.send resolver sslContext request).frames := by
  have hbegins := begins_cleared r.client request
  rw [send, if_neg (by rw [hidle]; decide)]
  split
  · next error _ =>
    have hparser : (fail error (.send r.exchanges.length)
        ⟨cleared r.client request, r.exchanges ++ [⟨[], []⟩], r.frames⟩).client.parser =
          (cleared r.client request).parser := by
      rw [fail]
      split
      · rfl
      · rfl
    have hsame : Quiet (mk (cleared r.client request)
        (r.exchanges ++ [⟨[], []⟩]) r.frames).frames := hquiet
    rw [hparser]
    exact fail_reads hbegins hsame _ _
  · exact (hquiet.cons rfl).reads_sending hbegins (Or.inl rfl) rfl

end Reads

namespace ReceivingRun

variable {m m' : ReceivingRun}

/-- The calls of an undisturbed exchange have made of the parser what one call would make. -/
def Good (m : ReceivingRun) : Prop :=
  m.undisturbed = true → Reads m.begun m.calls.flatten m.run.client m.run.frames

theorem Good.step {action : ClientRun.Action} (h : m.Good) (hstep : m.step action = some m') :
    m'.Good := by
  obtain ⟨r', hrun, rfl⟩ := map_eq_some_iff.mp hstep
  intro hundisturbed
  cases action with
  | send resolver sslContext request =>
    obtain ⟨-, heq⟩ := ite_none_right_eq_some.mp hrun
    obtain rfl := Option.some.inj heq
    rw [watch] at hundisturbed ⊢
    split
    · next hbusy =>
      rw [if_pos hbusy] at hundisturbed
      have hsame : m.run.send resolver sslContext request = m.run := if_pos hbusy
      rw [hsame]
      exact h hundisturbed
    · next hidle =>
      rw [if_neg hidle] at hundisturbed
      have hquiet : Quiet m.run.frames := by
        intro frame hframe
        simpa using all_eq_true.mp hundisturbed frame hframe
      exact hquiet.send_reads (Bool.eq_false_of_not_eq_true hidle) resolver sslContext request
  | cancel => cases hundisturbed
  | reset => cases hundisturbed
  | connected writes =>
    obtain ⟨hreport, heq⟩ := ite_none_right_eq_some.mp hrun
    obtain rfl := Option.some.inj heq
    exact (h hundisturbed).handleConnected ((h hundisturbed).reports hreport) writes
  | writable disarms writes =>
    obtain ⟨hreport, heq⟩ := ite_none_right_eq_some.mp hrun
    obtain rfl := Option.some.inj heq
    exact (h hundisturbed).handleWritable ((h hundisturbed).reports hreport) disarms writes
  | message data =>
    obtain ⟨hreport, heq⟩ := ite_none_right_eq_some.mp hrun
    obtain rfl := Option.some.inj heq
    have hbefore : m.undisturbed = true := by
      rw [watch, message] at hundisturbed
      split at hundisturbed
      · exact hundisturbed
      split at hundisturbed
      · exact hundisturbed
      · exact hundisturbed
    have hafter := (h hbefore).handleMessage ((h hbefore).reports hreport) data
    rw [watch, message]
    split
    · next hparses =>
      rw [if_pos hparses] at hafter
      rw [flatten_append, flatten_singleton]
      exact hafter
    next hskips =>
    rw [if_neg hskips] at hafter
    split
    · exact hafter
    · exact hafter
  | disconnected =>
    obtain ⟨hreport, heq⟩ := ite_none_right_eq_some.mp hrun
    obtain rfl := Option.some.inj heq
    exact (h hundisturbed).handleDisconnected ((h hundisturbed).reports hreport)
  | error text =>
    obtain ⟨hreport, heq⟩ := ite_none_right_eq_some.mp hrun
    obtain rfl := Option.some.inj heq
    exact (h hundisturbed).handleTransportError ((h hundisturbed).reports hreport) text
  | connectReturns lastErrorString =>
    cases hframes : m.run.frames with
    | nil =>
      rw [ClientRun.step, hframes] at hrun
      cases hrun
    | cons frame frames =>
      cases frame with
      | connecting n transport => exact (h hundisturbed).connectReturns hframes hrun
      | _ =>
        rw [ClientRun.step, hframes] at hrun
        cases hrun
  | callbackReturns result parser =>
    cases hframes : m.run.frames with
    | nil =>
      rw [ClientRun.step, hframes] at hrun
      cases hrun
    | cons frame frames =>
      have hreads := h hundisturbed
      rw [hframes] at hreads
      rw [ClientRun.step, hframes] at hrun
      exact hreads.callbackReturns hrun

/-- What was delivered went to the parser or came early. -/
structure Counted (m : ReceivingRun) : Prop where
  length : m.delivered.length = m.calls.flatten.length + m.early.flatten.length
  nonempty : ∀ data ∈ m.early, data ≠ []
  ordered : m.early = [] → m.calls.flatten = m.delivered

theorem Counted.began (before r : ClientRun) : (began before r).Counted where
  length := rfl
  nonempty := by simp [ReceivingRun.began]
  ordered _ := rfl

theorem Counted.message (h : m.Counted) (data : Bytes) (r : ClientRun) :
    (m.message data r).Counted := by
  have hlength := h.length
  rw [ReceivingRun.message]
  split
  · constructor
    · simp only [length_append, flatten_append, flatten_singleton]
      omega
    · exact h.nonempty
    · intro hearly
      rw [flatten_append, flatten_singleton, h.ordered hearly]
  split
  · next hcomes =>
    have hdata : data ≠ [] := of_decide_eq_true (Bool.and_eq_true_iff.mp hcomes).2
    constructor
    · simp only [length_append, flatten_append, flatten_singleton]
      omega
    · exact forall_mem_append.mpr ⟨h.nonempty, forall_mem_singleton.mpr hdata⟩
    · intro hearly
      simp at hearly
  · exact ⟨h.length, h.nonempty, h.ordered⟩

theorem Counted.step {action : ClientRun.Action} (h : m.Counted) (hstep : m.step action = some m') :
    m'.Counted := by
  obtain ⟨r', -, rfl⟩ := map_eq_some_iff.mp hstep
  have hsame : ∀ undisturbed, Counted { m with run := r', undisturbed := undisturbed } :=
    fun _ => ⟨h.length, h.nonempty, h.ordered⟩
  cases action with
  | send resolver sslContext request =>
    rw [watch]
    split
    · exact hsame _
    · exact Counted.began _ _
  | message data => exact h.message data r'
  | _ => exact hsame _

theorem Counted.passed_iff (h : m.Counted) : m.calls.flatten = m.delivered ↔ m.early = [] := by
  constructor
  · intro hpassed
    have hlength := h.length
    rw [hpassed] at hlength
    have hnothing : m.early.flatten = [] := eq_nil_of_length_eq_zero (by omega)
    by_contra hearly
    obtain ⟨data, hdata⟩ := exists_mem_of_ne_nil _ hearly
    exact h.nonempty data hdata (flatten_eq_nil_iff.mp hnothing data hdata)
  · exact h.ordered

theorem Reachable.invariant (h : Reachable m) : m.Good ∧ m.Counted := by
  induction h with
  | start parser =>
    exact ⟨fun hundisturbed => Bool.noConfusion hundisturbed, rfl, forall_mem_nil _,
      fun _ => rfl⟩
  | step _ hstep ih => exact ⟨ih.1.step hstep, ih.2.step hstep⟩

/-- In every run, what was delivered in an exchange is what `parse` was called with, in order,
exactly when no message came before the request was sent; then the parser of an undisturbed
exchange is where one call on all the bytes would have brought it, also when the response is
handed over. -/
theorem delivered_parsed_iff (h : Reachable m) :
    (m.calls.flatten = m.delivered ↔ m.early = []) ∧
      (m.early = [] → m.undisturbed = true →
        (m.run.client.state = .Receiving → Quiet m.run.frames →
          m.begun.parse m.delivered = (.NeedMoreData, m.run.client.parser, [])) ∧
        (m.run.client.state = .Complete →
          (m.begun.parse m.delivered).2.1.notifyEof = (.Complete, m.run.client.parser))) := by
  obtain ⟨hgood, hcounted⟩ := h.invariant
  refine ⟨hcounted.passed_iff, ?_⟩
  intro hearly hundisturbed
  have hreads := hgood hundisturbed
  rw [hcounted.ordered hearly] at hreads
  exact ⟨hreads.waits, hreads.complete⟩

/-- The run of some actions. -/
def after (m : ReceivingRun) : List ClientRun.Action → Option ReceivingRun
  | [] => some m
  | action :: actions => (m.step action).bind fun m => m.after actions

theorem Reachable.after {actions : List ClientRun.Action} (h : Reachable m)
    (hafter : m.after actions = some m') : Reachable m' := by
  induction actions generalizing m with
  | nil =>
    cases hafter
    exact h
  | cons action actions ih =>
    obtain ⟨next, hnext, hrest⟩ := bind_eq_some_iff.mp hafter
    exact ih (.step h hnext) hrest

/-- A request of 27 bytes. -/
def rootRequest : JobHttpRequest where
  method := .Get
  customMethod := []
  url := ⟨.Http, ascii ['h'], 0, [], [], true⟩
  headers := .empty
  body := []

def noContent : Bytes := ascii "HTTP/1.1 204 No Content\r\n\r\n".toList

/-- The request goes out at once, and the response comes behind it. -/
def promptActions : List ClientRun.Action :=
  [.send true true rootRequest, .connectReturns none, .connected ⟨[.transferred 27], true, true⟩,
    .message noContent]

theorem delivered_parsed_prompt : ∃ m, Reachable m ∧ m.early = [] ∧ m.undisturbed = true ∧
    m.delivered = noContent ∧ m.calls.flatten = m.delivered ∧
      (m.run.client.state = .Complete →
        (m.begun.parse m.delivered).2.1.notifyEof = (.Complete, m.run.client.parser)) := by
  have hsome : ((start newParser).after promptActions).isSome = true := by decide
  obtain ⟨m, hm⟩ := isSome_iff_exists.mp hsome
  have hseen : ((start newParser).after promptActions).map
      (fun m => (m.early, m.undisturbed, m.delivered)) = some ([], true, noContent) := by decide
  rw [hm, map_some, Option.some.injEq, Prod.mk.injEq, Prod.mk.injEq] at hseen
  obtain ⟨hearly, hundisturbed, hdelivered⟩ := hseen
  have hreached : Reachable m := (Reachable.start newParser).after hm
  obtain ⟨hpassed, hparser⟩ := delivered_parsed_iff hreached
  exact ⟨m, hreached, hearly, hundisturbed, hdelivered, hpassed.mpr hearly,
    (hparser hearly hundisturbed).2⟩

/-- The write would block, the response comes, and the request goes out after it. -/
def earlyActions : List ClientRun.Action :=
  [.send true true rootRequest, .connectReturns none, .connected ⟨[.retry], true, true⟩,
    .message noContent, .writable true ⟨[.transferred 27], true, true⟩]

/-- The response is lost: the client waits for it with a parser that has read nothing. -/
theorem early_response_lost : ∃ m, Reachable m ∧ m.undisturbed = true ∧
    m.run.client.state = .Receiving ∧ m.delivered = noContent ∧ m.calls.flatten ≠ m.delivered ∧
      m.run.client.parser = m.begun := by
  have hsome : ((start newParser).after earlyActions).isSome = true := by decide
  obtain ⟨m, hm⟩ := isSome_iff_exists.mp hsome
  have hseen : ((start newParser).after earlyActions).map
      (fun m => (m.undisturbed, m.run.client.state, m.delivered, m.calls)) =
        some (true, .Receiving, noContent, []) := by decide
  have hparser : ((start newParser).after earlyActions).map
      (fun m => m.run.client.parser == m.begun) = some true := by decide
  rw [hm, map_some, Option.some.injEq] at hseen hparser
  rw [Prod.mk.injEq, Prod.mk.injEq, Prod.mk.injEq] at hseen
  obtain ⟨hundisturbed, hstate, hdelivered, hcalls⟩ := hseen
  refine ⟨m, (Reachable.start newParser).after hm, hundisturbed, hstate, hdelivered, ?_,
    eq_of_beq hparser⟩
  rw [hcalls, hdelivered]
  decide

end ReceivingRun

end JobNet
