import OddBuilder.Net.Request

/-!
# The HTTP client

`JobHttpClient` between its caller and its transport. The caller calls `send`,
`cancel` and `reset`, also from inside a callback; the transport reports events, also
while it connects, and answers the calls that the client makes to it. What runs at a
moment is a stack of callbacks and of calls of `connectToHost`. The error, response
and progress callbacks are set; an SSL error that is not fatal is not passed on.

Each `send` that is not refused as busy begins an exchange. Its history is what the
caller, the transport and the client do about it, in order.
-/

namespace JobNet

namespace JobHttpClient

inductive State
  | Idle | Connecting | Sending | Receiving | Complete | Error
deriving DecidableEq

inductive Transport
  | None | Tcp | Ssl
deriving DecidableEq

end JobHttpClient

open JobHttpClient

structure JobHttpClient where
  state : State
  /-- The transport that there is, with its callbacks attached. -/
  transport : Transport
  request : JobHttpRequest
  parser : JobHttpParser
  requestData : Bytes
  requestBytesSent : Nat
  lastError : String

/-- A request after `clear`. -/
def JobHttpRequest.cleared : JobHttpRequest := ⟨.Get, [], .cleared, .empty, []⟩

namespace JobHttpClient

def isBusy (client : JobHttpClient) : Bool :=
  client.state = .Connecting || client.state = .Sending || client.state = .Receiving

inductive Happening
  | onError (text : String)
  | onResponse
  /-- A call of `cancel` or `reset`. -/
  | stopped
  /-- `send` returns. -/
  | returned (result : Bool)
  /-- A disconnection or an error that the transport reports has been handled. -/
  | reported
  /-- The transport takes bytes. -/
  | gave (bytes : Bytes)
  /-- The state becomes Receiving. -/
  | receiving
deriving DecidableEq

structure Exchange where
  /-- The serialised request. -/
  data : Bytes
  history : List Happening
deriving DecidableEq

def Exchange.add (happening : Happening) (e : Exchange) : Exchange :=
  { e with history := e.history ++ [happening] }

/-- What follows a call of `fail` in the function that called it. -/
inductive Rest
  | handler
  /-- The `send` of an exchange returns false. -/
  | send (exchange : Nat)
deriving DecidableEq

/-- What runs and returns to the client. -/
inductive Frame
  /-- `connectToHost` of this transport, in the `send` of the exchange. -/
  | connecting (exchange : Nat) (transport : Transport)
  /-- The body callback, in a call of `parse` on the data. -/
  | body (data : Bytes) (parser : JobHttpParser)
  | progress (result : JobHttpParser.ParseResult)
  /-- `onError` or `onResponse`. -/
  | callback (rest : Rest)

end JobHttpClient

structure ClientRun where
  client : JobHttpClient
  /-- In order; the last one is the current one. -/
  exchanges : List Exchange
  frames : List Frame

namespace ClientRun

def current (r : ClientRun) : Nat := r.exchanges.length - 1

def record (n : Nat) (happening : Happening) (r : ClientRun) : ClientRun :=
  { r with exchanges := r.exchanges.modify n (Exchange.add happening) }

/-- Something happens to the current exchange. -/
def note (happening : Happening) (r : ClientRun) : ClientRun := r.record r.current happening

def push (frame : Frame) (r : ClientRun) : ClientRun := { r with frames := frame :: r.frames }

def withClient (client : JobHttpClient) (r : ClientRun) : ClientRun := { r with client := client }

/-- The caller of `fail` goes on. -/
def resume (r : ClientRun) : Rest → ClientRun
  | .handler => r
  | .send n => r.record n (.returned false)

/-- A client without its transport and its data. -/
def dropped (client : JobHttpClient) (state : State) : JobHttpClient :=
  { client with state := state, transport := .None, requestData := [], requestBytesSent := 0 }

def fail (error : String) (rest : Rest) (r : ClientRun) : ClientRun :=
  if r.client.state = .Error then r.resume rest
  else
    ((r.withClient { dropped r.client .Error with lastError := error }).note (.onError error)).push
      (.callback rest)

def completeResponse (r : ClientRun) : ClientRun :=
  if r.client.state = .Complete then r
  else ((r.withClient (dropped r.client .Complete)).note .onResponse).push (.callback .handler)

/-- What `cancel` and `reset` have in common. -/
def stopped (client : JobHttpClient) : JobHttpClient :=
  { dropped client .Idle with parser := client.parser.reset, lastError := "" }

def cancel (r : ClientRun) : ClientRun :=
  (if r.client.isBusy then r.withClient (stopped r.client) else r).note .stopped

def reset (r : ClientRun) : ClientRun :=
  (r.withClient { stopped r.client with request := .cleared }).note .stopped

/-- The answer of the transport to a write. -/
inductive NetIoResult
  | transferred (bytes : Nat)
  | retry
  | eof
  | error (lastErrorString : String)

/-- The answers of the transport to what `sendPendingData` asks: to the writes in turn, and whether
write interest can be set and cleared. When the answers are used up, a write would block. -/
structure Writes where
  results : List NetIoResult
  arms : Bool
  clears : Bool

def setWriteInterest (r : ClientRun) (answer : Bool) : Bool := r.client.transport ≠ .None && answer

/-- `sendTransport`; without a transport it fails. -/
def sendTransport (r : ClientRun) (result : NetIoResult) : NetIoResult :=
  if r.client.transport = .None then .error "" else result

/-- A write that would block. -/
def waitWritable (writes : Writes) (r : ClientRun) : ClientRun :=
  if r.setWriteInterest writes.arms then r
  else r.fail "Failed to arm HTTP writable notification" .handler

/-- After the loop of `sendPendingData`. -/
def allSent (writes : Writes) (r : ClientRun) : ClientRun :=
  if r.setWriteInterest writes.clears then
    (r.withClient { r.client with state := .Receiving }).note .receiving
  else r.fail "Failed to clear HTTP writable notification" .handler

def writeError (r : ClientRun) (lastErrorString : String) : String :=
  if r.client.transport = .None then "HTTP write failed without an active transport"
  else lastErrorString

/-- The bytes that are not sent. -/
def remaining (r : ClientRun) : Bytes := r.client.requestData.drop r.client.requestBytesSent

/-- The transport took bytes. -/
def sent (bytes : Nat) (r : ClientRun) : ClientRun :=
  (r.withClient { r.client with requestBytesSent := r.client.requestBytesSent + bytes }).note
    (.gave (r.remaining.take bytes))

/-- The loop of `sendPendingData`. -/
def sendLoop (writes : Writes) : List NetIoResult → ClientRun → ClientRun
  | [], r => if r.remaining = [] then r.allSent writes else r.waitWritable writes
  | result :: results, r =>
    if r.remaining = [] then r.allSent writes
    else
      match r.sendTransport result with
      | .transferred bytes =>
        if bytes = 0 then r.fail "HTTP transport reported a zero-byte successful write" .handler
        else if r.remaining.length < bytes then
          r.fail "HTTP transport reported an invalid write count" .handler
        else sendLoop writes results (r.sent bytes)
      | .retry => r.waitWritable writes
      | .eof => r.fail "HTTP transport closed while sending request" .handler
      | .error lastErrorString => r.fail (r.writeError lastErrorString) .handler

def sendPendingData (writes : Writes) (r : ClientRun) : ClientRun :=
  if r.client.state ≠ .Sending then r else sendLoop writes writes.results r

def handleConnected (writes : Writes) (r : ClientRun) : ClientRun :=
  if r.client.state ≠ .Connecting then r
  else (r.withClient { r.client with state := .Sending }).sendPendingData writes

def handleWritable (disarms : Bool) (writes : Writes) (r : ClientRun) : ClientRun :=
  if r.client.state ≠ .Sending then r
  else if r.setWriteInterest disarms then r.sendPendingData writes
  else r.fail "Failed to clear HTTP writable notification" .handler

/-- The switch on the result of `parse`. -/
def settle (result : JobHttpParser.ParseResult) (r : ClientRun) : ClientRun :=
  match result with
  | .NeedMoreData => r
  | .Complete => r.completeResponse
  | .Error => r.fail r.client.parser.lastError .handler

/-- After `parse`, which has left this parser; the progress callback comes first. -/
def parsed (before : Nat) (result : JobHttpParser.ParseResult) (parser : JobHttpParser)
    (r : ClientRun) : ClientRun :=
  let r := r.withClient { r.client with parser := parser }
  if parser.bodyBytesReceived ≠ before then r.push (.progress result) else r.settle result

/-- The call of `parse`. -/
def parseMessage (data : Bytes) (r : ClientRun) : ClientRun :=
  let (result, parser, _) := r.client.parser.parse data
  r.parsed r.client.parser.bodyBytesReceived result parser

/-- Whether `parse` gives bytes to the body callback. -/
def callsBack (parser : JobHttpParser) (data : Bytes) : Bool :=
  (parser.parse data).2.1.streamed ≠ parser.streamed

def handleMessage (data : Bytes) (r : ClientRun) : ClientRun :=
  if r.client.state ≠ .Receiving ∨ data = [] then r
  else if callsBack r.client.parser data then r.push (.body data r.client.parser)
  else r.parseMessage data

def handleDisconnected (r : ClientRun) : ClientRun :=
  if r.client.isBusy then
    if r.client.state = .Receiving then
      let (result, parser) := r.client.parser.notifyEof
      let r := r.withClient { r.client with parser := parser }
      match result with
      | .Complete => r.completeResponse
      | .Error => r.fail parser.lastError .handler
      | .NeedMoreData => r.fail "HTTP transport disconnected before response completed" .handler
    else r.fail "HTTP transport disconnected before response completed" .handler
  else r

def handleTransportError (error : String) (r : ClientRun) : ClientRun :=
  if r.client.state = .Complete ∨ r.client.state = .Error then r
  else r.fail (if error = "" then "HTTP transport error" else error) .handler

/-- The transport of a scheme. -/
def transportOf (scheme : Scheme) : Transport := if scheme = .Https then .Ssl else .Tcp

/-- The start of `beginRequest`. -/
def cleared (client : JobHttpClient) (request : JobHttpRequest) : JobHttpClient :=
  { client with
    transport := .None
    request := request
    parser :=
      { client.parser.reset with
        toCore := { client.parser.reset.toCore with requestMethod := request.method } }
    requestData := []
    requestBytesSent := 0
    lastError := "" }

/-- `send`, with whether the client has a resolver and an SSL context. -/
def send (resolver sslContext : Bool) (request : JobHttpRequest) (r : ClientRun) : ClientRun :=
  if r.client.isBusy then r
  else
    let client := cleared r.client request
    let n := r.exchanges.length
    match prepareRequest resolver sslContext request with
    | .error error =>
      fail error (.send n) ⟨client, r.exchanges ++ [⟨[], []⟩], r.frames⟩
    | .ok data =>
      let transport := transportOf request.url.scheme
      { client := { client with state := .Connecting, transport := transport, requestData := data }
        exchanges := r.exchanges ++ [⟨data, []⟩]
        frames := .connecting n transport :: r.frames }

/-- What `connectTransport` says when `connectToHost` has failed. -/
def connectError (transport : Transport) (lastErrorString : String) (r : ClientRun) : String :=
  if r.client.transport = transport then lastErrorString
  else if transport = .Tcp then "TCP transport unavailable"
  else "SSL transport unavailable"

inductive Action
  | send (resolver sslContext : Bool) (request : JobHttpRequest)
  | cancel
  | reset
  | connected (writes : Writes)
  | writable (disarms : Bool) (writes : Writes)
  | message (data : Bytes)
  | disconnected
  | error (text : String)
  /-- `connectToHost` returns true, or false with an error string. -/
  | connectReturns (lastErrorString : Option String)
  /-- A callback returns. The result is that of a `parse` whose parser was reset in the callback. -/
  | callbackReturns (result : JobHttpParser.ParseResult) (parser : JobHttpParser)

/-- Whether the caller of the client is what runs. -/
def inCaller (r : ClientRun) : Bool :=
  match r.frames with
  | .connecting _ _ :: _ => false
  | _ => true

/-- Whether the transport that there is can report an event. -/
def canReport (r : ClientRun) : Bool :=
  r.client.transport ≠ .None &&
    match r.frames with
    | [] => true
    | .connecting _ _ :: _ => true
    | _ => false

/-- A callback returns to the client. -/
def returnFrom (frame : Frame) (result : JobHttpParser.ParseResult) (parser : JobHttpParser)
    (r : ClientRun) : Option ClientRun :=
  match frame with
  | .connecting _ _ => none
  | .body data before =>
    if r.client.parser = before then some (r.parseMessage data)
    else some (r.parsed before.bodyBytesReceived result parser)
  | .progress result => some (r.settle result)
  | .callback rest => some (r.resume rest)

def step (r : ClientRun) : Action → Option ClientRun
  | .send resolver sslContext request =>
    if r.inCaller then some (r.send resolver sslContext request) else none
  | .cancel => if r.inCaller then some r.cancel else none
  | .reset => if r.inCaller then some r.reset else none
  | .connected writes => if r.canReport then some (r.handleConnected writes) else none
  | .writable disarms writes => if r.canReport then some (r.handleWritable disarms writes) else none
  | .message data => if r.canReport then some (r.handleMessage data) else none
  | .disconnected => if r.canReport then some (r.handleDisconnected.note .reported) else none
  | .error text => if r.canReport then some ((r.handleTransportError text).note .reported) else none
  | .connectReturns lastErrorString =>
    match r.frames with
    | .connecting n transport :: frames =>
      let r := { r with frames := frames }
      match lastErrorString with
      | none => some (r.record n (.returned true))
      | some text => some (r.fail (r.connectError transport text) (.send n))
    | _ => none
  | .callbackReturns result parser =>
    match r.frames with
    | frame :: frames => returnFrom frame result parser { r with frames := frames }
    | [] => none

def start (parser : JobHttpParser) : ClientRun where
  client := ⟨.Idle, .None, .cleared, parser, [], 0, ""⟩
  exchanges := []
  frames := []

/-- What the actions that are allowed can make of a new client. -/
inductive Reachable (allowed : ClientRun → Action → Prop) : ClientRun → Prop
  | start (parser : JobHttpParser) : Reachable allowed (start parser)
  | step {r r' : ClientRun} {action : Action} (h : Reachable allowed r) (hallowed : allowed r action)
      (hstep : r.step action = some r') : Reachable allowed r'

end ClientRun

end JobNet
