import OddBuilder.Net.RequestMessage

/-!
# Requests that are one message

A request is read back as itself, with nothing left over, exactly when the parts that
the client writes without a look at them are clean: the method, the query, the host,
the start of the path, control characters in values, and the framing fields, which
the caller sets and the client does not compare with the body.
-/

namespace JobNet

open JobHttpHeader JobHttpParser Core RequestMessage List JobHttpClient

namespace JobHttpRequest

/-- The fields on the wire. -/
def fields (request : JobHttpRequest) : List (Bytes × Bytes) :=
  (if request.headers.contains hostName then []
    else [(ascii "Host".toList, request.url.hostValue)]) ++
    request.headers.fields.map fun field => (field.displayName, field.value)

/-- The message that the request is meant to be. -/
def message (request : JobHttpRequest) : RequestMessage :=
  ⟨request.methodString, request.target, request.fields, request.body⟩

/-- The body is what the header says it is: empty, of the stated length, or one chunked body. -/
def FramesBody (request : JobHttpRequest) : Prop :=
  match requestLength request.headers with
  | some .empty => request.body = []
  | some (.octets n) => request.body.length = n
  | some .chunked => readChunks request.body.length request.body = some []
  | _ => False

structure Clean (request : JobHttpRequest) : Prop where
  method : isValidFieldName request.methodString = true
  path : request.url.path = [] ∨ request.url.path.head? = some 47
  query : isUriText request.url.query = true
  host : request.headers.contains hostName = false →
    request.url.host.any isControl = false ∧ Trimmed request.url.hostValue
  values : ∀ field ∈ request.headers.fields, field.value.any isControl = false
  framed : request.FramesBody

end JobHttpRequest

open JobHttpRequest

theorem contains_cons {field : Field} {fields : List Field} {name : Bytes}
    (h : equalsIgnoreCase field.name name = false) :
    contains ⟨field :: fields⟩ name = contains ⟨fields⟩ name := by
  simp [JobHttpHeader.contains, h]

theorem listMembers_cons {field : Field} {fields : List Field} {name : Bytes}
    (h : equalsIgnoreCase field.name name = false) :
    listMembers ⟨field :: fields⟩ name = listMembers ⟨fields⟩ name := by
  simp [JobHttpHeader.listMembers, h]

/-- A field that is none of the two framing fields does not matter for the length. -/
theorem requestLength_cons {field : Field} {fields : List Field}
    (hte : equalsIgnoreCase field.name transferEncodingName = false)
    (hcl : equalsIgnoreCase field.name contentLengthName = false) :
    requestLength ⟨field :: fields⟩ = requestLength ⟨fields⟩ := by
  rw [requestLength, requestLength, contains_cons hte, contains_cons hcl, listMembers_cons hte,
    listMembers_cons hcl]

theorem headerOf_sound {header : JobHttpHeader} (h : header.Sound) :
    headerOf (header.fields.map fun field => (field.displayName, field.value)) = header := by
  obtain ⟨fields⟩ := header
  have hid : (fields.map fun field : Field =>
      (⟨normalizeKey field.displayName, field.displayName, field.value⟩ : Field)) = fields.map id := by
    refine map_congr_left fun field hfield => ?_
    rw [← (h field hfield).name]
    rfl
  rw [headerOf, map_map]
  exact congrArg JobHttpHeader.mk (hid.trans (map_id fields))

/-- The fields on the wire have the length that the header of the request has. -/
theorem requestLength_fields {request : JobHttpRequest} (h : request.headers.Sound) :
    requestLength (headerOf request.fields) = requestLength request.headers := by
  have hheader := headerOf_sound h
  rw [headerOf] at hheader
  rw [JobHttpRequest.fields]
  split
  · rw [nil_append, headerOf, hheader]
  · have hte : equalsIgnoreCase (normalizeKey (ascii "Host".toList)) transferEncodingName = false := by
      decide
    have hcl : equalsIgnoreCase (normalizeKey (ascii "Host".toList)) contentLengthName = false := by
      decide
    rw [headerOf, map_append, map_singleton, singleton_append, requestLength_cons hte hcl, hheader]

theorem afterBody_nil {data : Bytes} {length : MessageLength} :
    afterBody data length = some [] ↔
      match length with
      | .empty => data = []
      | .octets n => data.length = n
      | .chunked => readChunks data.length data = some []
      | _ => False := by
  cases length with
  | empty => simp [afterBody]
  | octets n =>
    simp only [afterBody]
    split
    · rw [Option.some.injEq, drop_eq_nil_iff]
      omega
    · simp only [reduceCtorEq, false_iff]
      omega
  | chunked => rfl
  | tunnel => simp [afterBody]
  | untilClose => simp [afterBody]

/-- The body is read whole when it is framed. -/
theorem readBody_iff {request : JobHttpRequest} :
    readBody request.headers request.body = some (request.body, []) ↔ request.FramesBody := by
  have hread : readBody request.headers request.body = some (request.body, []) ↔
      ∃ length, requestLength request.headers = some length ∧
        afterBody request.body length = some [] := by
    constructor
    · intro h
      obtain ⟨length, hlength, h⟩ := Option.bind_eq_some_iff.1 h
      obtain ⟨rest, hrest, h⟩ := Option.map_eq_some_iff.1 h
      obtain rfl : rest = [] := congrArg Prod.snd h
      exact ⟨length, hlength, hrest⟩
    · rintro ⟨length, hlength, hafter⟩
      rw [readBody, hlength, Option.bind_some, hafter, Option.map_some, length_nil, Nat.sub_zero,
        take_length]
  rw [hread, FramesBody]
  constructor
  · rintro ⟨length, hlength, hafter⟩
    rw [hlength]
    have hframed := afterBody_nil.1 hafter
    cases length with
    | empty => exact hframed
    | octets n => exact hframed
    | chunked => exact hframed
    | tunnel => exact hframed
    | untilClose => exact hframed
  · intro h
    cases hlength : requestLength request.headers with
    | none =>
      rw [hlength] at h
      exact h.elim
    | some length =>
      rw [hlength] at h
      refine ⟨length, rfl, afterBody_nil.2 ?_⟩
      cases length with
      | empty => exact h
      | octets n => exact h
      | chunked => exact h
      | tunnel => exact h
      | untilClose => exact h

theorem isDigit_ascii {n : Nat} : ∀ c ∈ ascii (Nat.toDigits 10 n), isDigit c = true := by
  intro c hc
  obtain ⟨digit, hdigit, rfl⟩ := mem_map.1 hc
  have hdigit := Nat.isDigit_of_mem_toDigits (by decide) (by decide) hdigit
  rw [Char.isDigit, Bool.and_eq_true, decide_eq_true_iff, decide_eq_true_iff] at hdigit
  have hlow : 48 ≤ digit.toNat := hdigit.1
  have hhigh : digit.toNat ≤ 57 := hdigit.2
  have hall : ∀ code < 58, 48 ≤ code → isDigit (UInt8.ofNat code) = true := by decide
  exact hall digit.toNat (by omega) hlow

set_option maxRecDepth 4096 in
theorem not_isControl_of_isDigit {c : UInt8} (h : isDigit c = true) : isControl c = false := by
  have hall := forall_byte (p := fun c => !isDigit c || !isControl c) (by decide) c
  simpa [h] using hall

theorem any_hostValue (url : JobUrl) : url.hostValue.any isControl = url.host.any isControl := by
  have hport : (ascii (Nat.toDigits 10 url.port.toNat)).any isControl = false := by
    rw [any_eq_false]
    intro c hc
    rw [not_isControl_of_isDigit (isDigit_ascii c hc)]
    decide
  rw [JobUrl.hostValue, any_append]
  split
  · rw [any_cons, hport]
    simp [isControl]
  · simp

theorem Readable.host {url : JobUrl} :
    Readable (ascii "Host".toList, url.hostValue) ↔
      url.host.any isControl = false ∧ Trimmed url.hostValue := by
  constructor
  · intro h
    exact ⟨(any_hostValue url).symm.trans h.value, h.trimmed⟩
  · rintro ⟨hcontrol, htrimmed⟩
    have hname : isValidFieldName (ascii "Host".toList) = true := by decide
    exact ⟨hname, (any_hostValue url).trans hcontrol, htrimmed⟩

/-- The fields on the wire are read back when the host and the values are clean. -/
theorem readable_fields_iff {request : JobHttpRequest} (h : request.headers.Sound) :
    (∀ field ∈ request.fields, Readable field) ↔
      (request.headers.contains hostName = false →
        request.url.host.any isControl = false ∧ Trimmed request.url.hostValue) ∧
      ∀ field ∈ request.headers.fields, field.value.any isControl = false := by
  constructor
  · intro hall
    constructor
    · intro hhost
      refine Readable.host.1 (hall _ ?_)
      simp [JobHttpRequest.fields, hhost]
    · intro field hfield
      have hmem : (field.displayName, field.value) ∈ request.fields :=
        mem_append_right _ (mem_map_of_mem hfield)
      exact (hall _ hmem).value
  · rintro ⟨hhost, hvalues⟩ field hfield
    rcases mem_append.1 hfield with hfield | hfield
    · split at hfield
      · cases hfield
      · rename_i hcontains
        rw [mem_singleton.1 hfield]
        exact Readable.host.2 (hhost (Bool.eq_false_iff.2 hcontains))
    · obtain ⟨inner, hinner, rfl⟩ := mem_map.1 hfield
      exact ⟨(h inner hinner).display, hvalues inner hinner, (h inner hinner).trimmed⟩

/-- The data of a request: its request line, its field lines, an empty line and its body. -/
theorem buildRequestData_eq {request : JobHttpRequest} {data : Bytes}
    (h : buildRequestData request = .ok data) :
    data = (request.methodString ++ 32 :: (request.target ++ 32 :: ascii "HTTP/1.1".toList)) ++
      13 :: 10 ::
        ((request.fields.flatMap fun field => fieldLine field.1 field.2) ++
          13 :: 10 :: request.body) := by
  unfold buildRequestData at h
  split at h
  · cases h
  · cases h
    rw [JobHttpRequest.fields]
    split
    · simp [ascii, flatMap_map]
    · simp [ascii, flatMap_map]

/-- What is read of the data when all but the framing is clean. -/
theorem read_eq {request : JobHttpRequest} {data : Bytes}
    (hdata : buildRequestData request = .ok data) (hsound : request.headers.Sound)
    (hmethod : isValidFieldName request.methodString = true)
    (htarget : isOriginForm request.target = true)
    (hfields : ∀ field ∈ request.fields, Readable field) :
    RequestMessage.read data = (readBody request.headers request.body).map fun found =>
      (⟨request.methodString, request.target, request.fields, found.1⟩, found.2) := by
  have htext : isUriText request.target = true := by
    rw [isOriginForm, Bool.and_eq_true] at htarget
    exact htarget.2
  have hreturn : 13 ∉ request.methodString ++ 32 :: (request.target ++ 32 :: ascii "HTTP/1.1".toList) := by
    simp only [mem_append, mem_cons, not_or]
    refine ⟨tchar_not hmethod (by decide), by decide, ?_, by decide, by decide⟩
    intro hmem
    exact absurd (uriText_visible htext _ hmem) (by decide)
  have hbody : readBody (headerOf request.fields) request.body =
      readBody request.headers request.body := by
    rw [readBody, readBody, requestLength_fields hsound]
  have hline : ∀ field : Bytes × Bytes, 1 ≤ (fieldLine field.1 field.2).length := by
    intro field
    simp only [fieldLine, ascii, length_append, length_map, length_cons]
    omega
  have hlength := length_le_flatMap hline request.fields
  have hlines := readFields_lines hfields request.body
    (n := (request.fields.flatMap (fun field => fieldLine field.1 field.2) ++
      13 :: 10 :: request.body).length) (by simp only [length_append, length_cons]; omega)
  rw [buildRequestData_eq hdata, RequestMessage.read, readLine_append hreturn]
  simp only [readRequestLine_line hmethod htarget, Option.bind_some, hlines, hbody]

/-- What is read has a token as its method, a target in origin form and readable fields. -/
theorem of_read {data rest : Bytes} {message : RequestMessage}
    (h : RequestMessage.read data = some (message, rest)) :
    isValidFieldName message.method = true ∧ isOriginForm message.target = true ∧
      ∀ field ∈ message.fields, Readable field := by
  obtain ⟨⟨line⟩, -, h⟩ := Option.bind_eq_some_iff.1 h
  obtain ⟨⟨method⟩, hline, h⟩ := Option.bind_eq_some_iff.1 h
  obtain ⟨⟨fields⟩, hfields, h⟩ := Option.bind_eq_some_iff.1 h
  obtain ⟨⟨body⟩, -, h⟩ := Option.map_eq_some_iff.1 h
  cases h
  obtain ⟨hmethod, htarget⟩ := of_readRequestLine hline
  exact ⟨hmethod, htarget, readable_of_readFields hfields⟩

namespace JobHttpClient

/-- The bytes of an accepted request are one message, the one that the request is meant to be, with
nothing left over, exactly when the request is clean. -/
theorem request_message_iff {resolver sslContext : Bool} {request : JobHttpRequest} {data : Bytes}
    (hbuilt : Built request.headers)
    (haccepted : prepareRequest resolver sslContext request = .ok data) :
    RequestMessage.read data = some (request.message, []) ↔ request.Clean := by
  have hsound := hbuilt.sound
  have hdata := prepareRequest_ok haccepted
  have hread (hmethod : isValidFieldName request.methodString = true)
      (htarget : isOriginForm request.target = true)
      (hfields : ∀ field ∈ request.fields, Readable field) :
      RequestMessage.read data = some (request.message, []) ↔ request.FramesBody := by
    rw [read_eq hdata hsound hmethod htarget hfields, ← readBody_iff, Option.map_eq_some_iff]
    constructor
    · rintro ⟨⟨body, rest⟩, hbody, heq⟩
      cases heq
      exact hbody
    · intro hbody
      exact ⟨_, hbody, rfl⟩
  constructor
  · intro h
    obtain ⟨hmethod, htarget, hfields⟩ := of_read h
    obtain ⟨hpath, hquery⟩ := (isOriginForm_target request).1 htarget
    obtain ⟨hhost, hvalues⟩ := (readable_fields_iff hsound).1 hfields
    exact ⟨hmethod, hpath, hquery, hhost, hvalues, (hread hmethod htarget hfields).1 h⟩
  · intro h
    exact (hread h.method ((isOriginForm_target request).2 ⟨h.path, h.query⟩)
      ((readable_fields_iff hsound).2 ⟨h.host, h.values⟩)).2 h.framed

/-- A request with two bytes to store. -/
def storing : JobHttpRequest where
  method := .Put
  customMethod := []
  url := JobUrl.parse (ascii "https://example.org:8443/a b?c=d".toList)
  headers := (JobHttpHeader.empty.append (ascii "Content-Length".toList) (ascii ['2'])).getD .empty
  body := ascii "ok".toList

theorem request_message_iff_storing :
    RequestMessage.read (ascii ("PUT /a%20b?c=d HTTP/1.1\r\nHost: example.org:8443\r\n" ++
      "Content-Length: 2\r\n\r\nok").toList) = some (storing.message, []) := by
  have haccepted : prepareRequest true true storing =
      .ok (ascii ("PUT /a%20b?c=d HTTP/1.1\r\nHost: example.org:8443\r\n" ++
        "Content-Length: 2\r\n\r\nok").toList) := by decide
  have hlength : JobHttpHeader.append ⟨[]⟩ (ascii "Content-Length".toList) (ascii ['2']) =
      some storing.headers := by decide
  have hbuilt : Built storing.headers := .append .empty hlength
  refine (request_message_iff hbuilt haccepted).2 ⟨by decide, Or.inr (by decide),
    by decide, fun _ => ⟨by decide, trimOws_eq_self.1 (by decide)⟩,
    by decide, ?_⟩
  have hlength : requestLength storing.headers = some (.octets 2) := by decide
  rw [FramesBody, hlength]
  decide

/-- A URL that `parse` accepts, with a line end in its query. -/
def injecting : JobHttpRequest where
  method := .Get
  customMethod := []
  url := JobUrl.parse (ascii "http://h/?q HTTP/1.1\r\nX-Injected: 1\r\nY:".toList)
  headers := .empty
  body := []

/-- The query adds two fields to the message. -/
theorem query_adds_fields :
    ∃ data, Built injecting.headers ∧ prepareRequest true false injecting = .ok data ∧
      RequestMessage.read data = some (⟨ascii "GET".toList, ascii "/?q".toList,
        [(ascii "X-Injected".toList, ascii ['1']), (ascii ['Y'], ascii "HTTP/1.1".toList),
          (ascii "Host".toList, ascii ['h'])], []⟩, []) ∧
      RequestMessage.read data ≠ some (injecting.message, []) := by
  refine ⟨ascii "GET /?q HTTP/1.1\r\nX-Injected: 1\r\nY: HTTP/1.1\r\nHost: h\r\n\r\n".toList, .empty,
    ?_, ?_, ?_⟩
  · decide
  · decide
  · decide

end JobHttpClient

end JobNet
