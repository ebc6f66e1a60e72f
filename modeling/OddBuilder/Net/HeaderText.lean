import OddBuilder.Net.RequestMessage

/-!
# Headers on the wire

A header as text, and the response parser on a status line with that text behind it.
The field list comes back where the values hold no control characters; the message
is accepted if its framing fields are.
-/

namespace JobNet

open JobHttpHeader JobHttpParser Core List

variable {c : UInt8} {text : Bytes} {n : Nat}

namespace JobHttpHeader

def Field.line (field : Field) : Bytes := field.displayName ++ (ascii [':', ' '] ++ field.value)

def toString (header : JobHttpHeader) : Bytes :=
  (header.fields.flatMap fun field => field.line ++ crlf) ++ crlf

end JobHttpHeader

/-- A header that the mutators make and that the parser has room for. -/
structure Sendable (header : JobHttpHeader) : Prop where
  built : Built header
  size : header.size ≤ kMaxHeaderFields
  fits : ∀ field ∈ header.fields, field.line.length + 2 ≤ kLineBufferSize

theorem find_split {i : Nat} (h : find c text = some i) :
    text = text.take i ++ c :: text.drop (i + 1) := by
  induction text generalizing i with
  | nil => cases h
  | cons b text ih =>
    unfold find at h
    split at h
    · rename_i heq
      obtain rfl := Option.some.inj h
      rw [heq]
      rfl
    · obtain ⟨j, hj, rfl⟩ := Option.map_eq_some_iff.mp h
      rw [take_succ_cons, drop_succ_cons, cons_append, ← ih hj]

/-- The text in front of a later position. -/
theorem take_between {i j : Nat} (h : find c text = some i) (hij : i < j) :
    text.take j = text.take i ++ c :: (text.drop (i + 1)).take (j - i - 1) := by
  have hsplit := find_split h
  have hlength : (text.take i).length = i := by
    rw [length_take]
    have hall := congrArg List.length hsplit
    simp only [length_append, length_take, length_cons] at hall
    omega
  have hcount : j = i + ((j - i - 1) + 1) := by omega
  calc text.take j
      = (text.take i ++ c :: text.drop (i + 1)).take ((text.take i).length + ((j - i - 1) + 1)) := by
        rw [← hsplit, hlength, ← hcount]
    _ = text.take i ++ c :: (text.drop (i + 1)).take (j - i - 1) := by
        rw [take_length_add_append, take_succ_cons]

theorem fromChars_not_mem {base max : Nat} (h : fromChars base max text = some n)
    (hc : digitValue c = none) : c ∉ text := by
  intro hmem
  unfold fromChars at h
  split at h
  · cases h
  · have hdigit := digitsFrom_digit (Option.filter_eq_some_iff.mp h).1 hmem
    rw [hc] at hdigit
    cases hdigit

namespace JobHttpParser.Core

theorem parseStatusCode_noReturn {p p' : Core} {line : Bytes} (h : p.parseStatusCode line = (true, p')) :
    13 ∉ line := by
  unfold parseStatusCode at h
  split at h
  · cases h
  · split at h
    · cases h
    · rename_i hdigits
      have hfront : 13 ∉ line.take 3 := by
        intro hmem
        rw [Bool.not_eq_true', Bool.not_eq_false, all_eq_true] at hdigits
        exact absurd (hdigits 13 hmem) (by decide)
      have hline := take_append_drop 3 line
      split at h
      · cases h
      · split at h
        · cases h
        · split at h
          · rename_i hdrop
            rw [hdrop, append_nil] at hline
            rwa [hline] at hfront
          · rename_i c reason hdrop
            split at h
            · cases h
            · rename_i hblank
              split at h
              · cases h
              · rename_i hreason
                rw [← hline, hdrop, mem_append, mem_cons]
                rintro (hmem | hmem | hmem)
                · exact hfront hmem
                · exact hblank fun hc => absurd (hmem.trans hc) (by decide)
                · exact hreason (any_eq_true.mpr ⟨13, hmem, by decide⟩)

theorem parseStatusLine_noReturn {p p' : Core} {line : Bytes} (h : p.parseStatusLine line = (true, p')) :
    13 ∉ line := by
  unfold parseStatusLine at h
  split at h
  · cases h
  · rename_i hprotocol
    rw [Bool.not_eq_true', Bool.not_eq_false, isPrefixOf_iff_prefix] at hprotocol
    obtain ⟨version, rfl⟩ := hprotocol
    have hdrop : (ascii ['H', 'T', 'T', 'P', '/'] ++ version).drop 5 = version := rfl
    simp only [hdrop] at h
    have hrest : 13 ∉ version := by
      split at h
      · cases h
      · rename_i dot hdot
        split at h
        · cases h
        · split at h
          · cases h
          · rename_i firstSpace hspace
            split at h
            · cases h
            · rename_i horder
              split at h
              · cases h
              · rename_i major hmajor
                split at h
                · cases h
                · rename_i minor hminor
                  split at h
                  · cases h
                  · have hcode := parseStatusCode_noReturn h
                    have hfirst := fromChars_not_mem (Option.filter_eq_some_iff.mp hmajor).1
                      (c := 13) (by decide)
                    have hsecond := fromChars_not_mem (Option.filter_eq_some_iff.mp hminor).1
                      (c := 13) (by decide)
                    have hnumbers := take_between hdot (Nat.not_le.mp horder)
                    rw [find_split hspace, hnumbers]
                    simp [hfirst, hsecond, hcode]
    rw [mem_append]
    rintro (hmem | hmem)
    · exact absurd hmem (by decide)
    · exact hrest hmem

def setHeaders (p : Core) (headers : JobHttpHeader) : Core :=
  { p with response := { p.response with headers := headers } }

theorem run_fieldLine {p : Core} (hstate : p.state = .Headers) (hempty : p.lineBuffer = [])
    {field : Field} (hsound : field.Sound) (hplain : field.value.any isControl = false)
    (hfits : field.line.length + 2 ≤ kLineBufferSize)
    (hsize : p.response.headers.size < kMaxHeaderFields) :
    reader.run p (field.line ++ crlf) =
      (p.setHeaders ⟨p.response.headers.fields ++ [field]⟩, []) := by
  have htext : field.line = field.displayName ++ 58 :: (32 :: field.value) := rfl
  have hvalue : (32 :: field.value).any isControl = false := by
    rw [any_cons, hplain]
    decide
  have hline : 13 ∉ field.line := by
    rw [htext, mem_append, mem_cons]
    rintro (hmem | hmem | hmem)
    · exact tchar_not hsound.display (by decide) hmem
    · exact absurd hmem (by decide)
    · exact control_not hvalue (by decide) hmem
  have hfield : (⟨normalizeKey field.displayName, field.displayName, trimOws (32 :: field.value)⟩ : Field) =
      field := by
    have htrim : trimOws (32 :: field.value) = field.value := hsound.trimmed.trimOws_eq
    rw [htrim, ← hsound.name]
  rw [run_lineBytes (by simp [ReadsLines, hstate]) hempty hline hfits, htext]
  simp [handleLine, hstate, parseHeaderLine,
    parseFieldLine_of_valid hsound.display hvalue hsize, hfield, setHeaders]

theorem run_fieldLines {p : Core} (hstate : p.state = .Headers) (hempty : p.lineBuffer = [])
    {fields : List Field} (hsound : ∀ field ∈ fields, field.Sound)
    (hplain : ∀ field ∈ fields, field.value.any isControl = false)
    (hfits : ∀ field ∈ fields, field.line.length + 2 ≤ kLineBufferSize)
    (hsize : p.response.headers.size + fields.length ≤ kMaxHeaderFields) :
    reader.run p (fields.flatMap fun field => field.line ++ crlf) =
      (p.setHeaders ⟨p.response.headers.fields ++ fields⟩, []) := by
  induction fields generalizing p with
  | nil => simp [setHeaders]
  | cons field fields ih =>
    obtain ⟨hsound, hsounds⟩ := forall_mem_cons.mp hsound
    obtain ⟨hplain, hplains⟩ := forall_mem_cons.mp hplain
    obtain ⟨hfit, hfits⟩ := forall_mem_cons.mp hfits
    rw [length_cons] at hsize
    have hfirst := run_fieldLine hstate hempty hsound hplain hfit (by omega)
    have hlater := @ih (p.setHeaders ⟨p.response.headers.fields ++ [field]⟩) hstate hempty hsounds hplains
      hfits (by
        simp only [setHeaders, JobHttpHeader.size, length_append, length_singleton] at hsize ⊢
        omega)
    have hwhole := run_append_run hfirst hlater
    simpa [setHeaders] using hwhole

end JobHttpParser.Core

/-- A response that never has a body, whatever its fields say. -/
def HasNoBody (method : HttpMethod) (code : Nat) : Prop :=
  (100 ≤ code ∧ code < 200) ∨ method = .Head ∨ (method = .Connect ∧ 200 ≤ code ∧ code < 300) ∨
    code = 204 ∨ code = 304

/-- Framing fields that are no reason to refuse a response: one length in all members of
Content-Length, and where a body may follow, a list of codings without a length beside it. -/
structure FramingValid (method : HttpMethod) (code : Nat) (header : JobHttpHeader) : Prop where
  length : header.contains contentLengthName = true →
    ∃ n ≤ maxSize, ∀ member ∈ header.listMembers contentLengthName, decimal member = some n
  coding : ¬ HasNoBody method code → header.contains transferEncodingName = true →
    header.contains contentLengthName = false ∧
      ∃ sawChunked, finalChunked false (header.listMembers transferEncodingName) = .ok sawChunked

theorem fromChars_iff {max : Nat} {member : Bytes} :
    fromChars 10 max member = some n ↔ decimal member = some n ∧ n ≤ max := by
  unfold fromChars decimal
  split
  · simp
  · rw [Option.filter_eq_some_iff, decide_eq_true_iff]

theorem commonLength_some_ok {members : List Bytes}
    (h : ∀ member ∈ members, fromChars 10 maxSize member = some n) :
    commonLength (some n) members = .ok (some n) := by
  induction members with
  | nil => rfl
  | cons member members ih =>
    obtain ⟨hmember, hmembers⟩ := forall_mem_cons.mp h
    have hne : member ≠ [] := by
      rintro rfl
      cases hmember
    rw [commonLength, if_neg hne, hmember]
    simp only [ne_eq]
    exact ih hmembers

/-- The members agree on a length that fits. -/
theorem commonLength_iff {members : List Bytes} (hne : members ≠ []) :
    (∃ length, commonLength none members = .ok length) ↔
      ∃ n ≤ maxSize, ∀ member ∈ members, decimal member = some n := by
  constructor
  · rintro ⟨length, h⟩
    obtain ⟨n, -, hall⟩ := commonLength_ok hne h
    refine ⟨n, ?_, hall⟩
    obtain ⟨member, members, rfl⟩ := exists_cons_of_ne_nil hne
    unfold commonLength at h
    split at h
    · cases h
    · split at h
      · cases h
      · rename_i value hvalue
        obtain ⟨hdecimal, hvalueLe⟩ := fromChars_iff.mp hvalue
        obtain rfl := Option.some.inj (hdecimal.symm.trans (hall member mem_cons_self))
        exact hvalueLe
  · rintro ⟨n, hn, hall⟩
    obtain ⟨member, members, rfl⟩ := exists_cons_of_ne_nil hne
    obtain ⟨hmember, hmembers⟩ := forall_mem_cons.mp hall
    have hfirst : member ≠ [] := by
      rintro rfl
      cases hmember
    refine ⟨some n, ?_⟩
    rw [commonLength, if_neg hfirst, fromChars_iff.mpr ⟨hmember, hn⟩]
    exact commonLength_some_ok fun m hm => fromChars_iff.mpr ⟨hmembers m hm, hn⟩

theorem listMembers_ne_nil {headers : JobHttpHeader} {name : Bytes} (h : headers.contains name = true) :
    headers.listMembers name ≠ [] := by
  obtain ⟨field, hmem, hname⟩ := any_eq_true.mp h
  have hsplit : splitCommas field.value ≠ [] := by
    cases field.value with
    | nil => exact cons_ne_nil _ _
    | cons c text =>
      rw [splitCommas]
      split
      · exact cons_ne_nil _ _
      · split <;> exact cons_ne_nil _ _
  obtain ⟨member, members, hmembers⟩ := exists_cons_of_ne_nil hsplit
  apply ne_nil_of_mem (a := trimOws member)
  refine mem_flatMap.mpr ⟨field, mem_filter.mpr ⟨hmem, hname⟩, ?_⟩
  rw [hmembers]
  exact mem_cons_self

namespace JobHttpParser.Core

theorem parseContentLength_iff {p : Core} (h : p.response.headers.contains contentLengthName = true) :
    p.parseContentLength.1 = true ↔ ∃ n ≤ maxSize,
      ∀ member ∈ p.response.headers.listMembers contentLengthName, decimal member = some n := by
  have hne := listMembers_ne_nil h
  rw [← commonLength_iff hne]
  unfold parseContentLength
  split
  · rename_i hnil
    exact absurd hnil hne
  · split
    · rename_i herror
      rw [herror]
      constructor
      · intro h
        cases h
      · rintro ⟨_, h⟩
        cases h
    · rename_i length hlength
      exact ⟨fun _ => ⟨length, hlength⟩, fun _ => rfl⟩

theorem parseTransferEncoding_iff {p : Core}
    (h : p.response.headers.contains transferEncodingName = true) : p.parseTransferEncoding.1 = true ↔
      ∃ sawChunked, finalChunked false (p.response.headers.listMembers transferEncodingName) =
        .ok sawChunked := by
  unfold parseTransferEncoding
  split
  · rename_i hnil
    exact absurd hnil (listMembers_ne_nil h)
  · split
    · rename_i herror
      rw [herror]
      constructor
      · intro h
        cases h
      · rintro ⟨_, h⟩
        cases h
    · rename_i sawChunked hsaw
      exact ⟨fun _ => ⟨sawChunked, hsaw⟩, fun _ => rfl⟩

theorem bodyHeadersComplete_iff (p : Core) : p.bodyHeadersComplete.1 = true ↔
    (p.response.headers.contains transferEncodingName = true → p.hasContentLength = false ∧
      ∃ sawChunked, finalChunked false (p.response.headers.listMembers transferEncodingName) =
        .ok sawChunked) := by
  unfold bodyHeadersComplete
  split
  · rename_i hcoding
    rw [← parseTransferEncoding_iff hcoding]
    have hkept : ∀ q, p.parseTransferEncoding = (true, q) → q.hasContentLength = p.hasContentLength := by
      intro q hq
      obtain ⟨_, -, -, rfl⟩ := parseTransferEncoding_ok hq
      rfl
    rcases hparsed : p.parseTransferEncoding with ⟨ok, q⟩
    cases ok with
    | false => simp [hcoding]
    | true =>
      rw [← hkept q hparsed]
      cases hlength : q.hasContentLength with
      | true => simp [hcoding, fail, hlength]
      | false => simp [hlength]
  · rename_i hcoding
    split <;> exact ⟨fun _ h => absurd h hcoding, fun _ => rfl⟩

theorem frameMessage_iff (p : Core) : p.frameMessage.1 = true ↔
    (¬ HasNoBody p.requestMethod p.response.code →
      p.response.headers.contains transferEncodingName = true → p.hasContentLength = false ∧
        ∃ sawChunked, finalChunked false (p.response.headers.listMembers transferEncodingName) =
          .ok sawChunked) := by
  unfold frameMessage
  split
  · rename_i hcode
    have hnone : HasNoBody p.requestMethod p.response.code := Or.inl hcode
    split <;> exact ⟨fun _ h => absurd hnone h, fun _ => rfl⟩
  · rename_i hinterim
    split
    · rename_i hhead
      exact ⟨fun _ h => absurd (Or.inr (Or.inl hhead)) h, fun _ => rfl⟩
    · rename_i hhead
      split
      · rename_i hconnect
        exact ⟨fun _ h => absurd (Or.inr (Or.inr (Or.inl hconnect))) h, fun _ => rfl⟩
      · rename_i hconnect
        split
        · rename_i hcode
          exact ⟨fun _ h => absurd (Or.inr (Or.inr (Or.inr hcode))) h, fun _ => rfl⟩
        · rename_i hcode
          have hbody : ¬ HasNoBody p.requestMethod p.response.code := by
            rintro (h | h | h | h)
            · exact hinterim h
            · exact hhead h
            · exact hconnect h
            · exact hcode h
          rw [bodyHeadersComplete_iff]
          exact ⟨fun h _ => h, fun h => h hbody⟩

/-- A header section is accepted exactly when its framing fields are valid. -/
theorem parseHeadersComplete_iff (p : Core) : p.parseHeadersComplete.1 = true ↔
    FramingValid p.requestMethod p.response.code p.response.headers := by
  unfold parseHeadersComplete
  cases hlength : p.response.headers.contains contentLengthName with
  | false =>
    simp only [Bool.false_eq_true, if_false]
    rw [frameMessage_iff]
    constructor
    · intro h
      exact ⟨fun hcontains => absurd (hcontains.symm.trans hlength) (by decide),
        fun hbody hcoding => ⟨hlength, (h hbody hcoding).2⟩⟩
    · exact fun h hbody hcoding => ⟨rfl, (h.coding hbody hcoding).2⟩
  | true =>
    simp only [if_true]
    have hiff := @parseContentLength_iff { p with hasContentLength := true } hlength
    rcases hparsed : ({ p with hasContentLength := true } : Core).parseContentLength with ⟨ok⟩
    rw [hparsed] at hiff
    cases ok with
    | false =>
      simp only [Bool.false_eq_true, false_iff] at hiff ⊢
      exact fun h => hiff (h.length hlength)
    | true =>
      obtain ⟨_, -, -, rfl⟩ := parseContentLength_ok hparsed
      rw [frameMessage_iff]
      constructor
      · intro h
        refine ⟨fun _ => hiff.mp rfl, fun hbody hcoding => ?_⟩
        have hnone := (h hbody hcoding).1
        cases hnone
      · intro h hbody hcoding
        have hnone := (h.coding hbody hcoding).1
        rw [hlength] at hnone
        cases hnone

theorem parseContentLength_response (p : Core) : p.parseContentLength.2.response = p.response := by
  unfold parseContentLength
  split
  · rfl
  · split <;> rfl

theorem parseTransferEncoding_response (p : Core) : p.parseTransferEncoding.2.response = p.response := by
  unfold parseTransferEncoding
  split
  · rfl
  · split <;> rfl

theorem bodyHeadersComplete_response (p : Core) : p.bodyHeadersComplete.2.response = p.response := by
  unfold bodyHeadersComplete
  split
  · have hresponse := parseTransferEncoding_response p
    split
    · rename_i hparsed
      rwa [hparsed] at hresponse
    · rename_i hparsed
      rw [hparsed] at hresponse
      split <;> exact hresponse
  · split <;> rfl

end JobHttpParser.Core

/-- A response that is skipped. -/
def Interim (code : Nat) : Prop := 100 ≤ code ∧ code < 200 ∧ code ≠ 101

namespace JobHttpParser.Core

theorem frameMessage_response {p : Core} (h : ¬ Interim p.response.code) :
    p.frameMessage.2.response = p.response := by
  unfold frameMessage
  split
  · rename_i hcode
    split
    · rfl
    · rename_i hother
      exact absurd ⟨hcode.1, hcode.2, hother⟩ h
  · split
    · rfl
    · split
      · rfl
      · split
        · rfl
        · exact bodyHeadersComplete_response p

theorem parseHeadersComplete_response {p : Core} (h : ¬ Interim p.response.code) :
    p.parseHeadersComplete.2.response = p.response := by
  unfold parseHeadersComplete
  generalize hlength : p.response.headers.contains contentLengthName = hasContentLength
  have hresponse := parseContentLength_response { p with hasContentLength := hasContentLength }
  cases hasContentLength with
  | false => exact frameMessage_response h
  | true =>
    simp only
    rcases hparsed : ({ p with hasContentLength := true } : Core).parseContentLength with ⟨ok, q⟩
    rw [hparsed] at hresponse
    cases ok with
    | false => exact hresponse
    | true =>
      have hcode : ¬ Interim q.response.code := by
        have hsame : q.response = p.response := hresponse
        rwa [hsame]
      exact (frameMessage_response hcode).trans hresponse

section Wire

variable {method : HttpMethod} {mode : BodyMode} {callback : Bool}

/-- The parser in front of the empty line. -/
theorem run_header {header : JobHttpHeader} (hsend : Sendable header)
    (hplain : ∀ field ∈ header.fields, field.value.any isControl = false) {line : Bytes} {q : Core}
    (hline : (Core.fresh method mode callback).parseStatusLine line = (true, q))
    (hroom : line.length + 2 ≤ kLineBufferSize) :
    reader.run (Core.fresh method mode callback) (line ++ crlf ++ header.toString) =
      (((q.setState .Headers).setHeaders header).parseHeadersComplete.2, []) ∧
    ((q.setState .Headers).setHeaders header).requestMethod = method := by
  obtain ⟨hmethod, hbuffer, hheaders⟩ :
      q.requestMethod = method ∧ q.lineBuffer = [] ∧ q.response.headers = .empty := by
    obtain ⟨minor, code, reasonPhrase, -, -, rfl⟩ := parseStatusLine_ok hline
    exact ⟨rfl, rfl, rfl⟩
  have hhandle : (Core.fresh method mode callback).handleLine line = (true, q.setState .Headers) := by
    have hstate : (Core.fresh method mode callback).state = .StatusLine := rfl
    simp [handleLine, hstate, hline, setState]
  have hstatus := run_lineBytes (Or.inl rfl : (Core.fresh method mode callback).ReadsLines) rfl
    (parseStatusLine_noReturn hline) hroom
  rw [hhandle] at hstatus
  have hfields := @run_fieldLines (q.setState .Headers) rfl hbuffer header.fields hsend.built.sound hplain
    hsend.fits (by simpa [setState, hheaders, JobHttpHeader.size, JobHttpHeader.empty] using hsend.size)
  have hempty := @run_emptyLine ((q.setState .Headers).setHeaders header) (Or.inr (Or.inl rfl)) hbuffer
  have hsame : (q.setState .Headers).response.headers.fields ++ header.fields = header.fields := by
    simp [setState, hheaders, JobHttpHeader.empty]
  rw [hsame] at hfields
  exact ⟨run_append_run hstatus (run_append_run hfields hempty), hmethod⟩

theorem parseHeadersComplete_state {p p' : Core} (h : p.parseHeadersComplete = (true, p')) :
    p'.state ≠ .Error := by
  obtain ⟨q, -, hframed⟩ := parseHeadersComplete_ok h
  cases hframed with
  | interim => exact State.noConfusion
  | tunnel => exact State.noConfusion
  | none => exact State.noConfusion
  | body _ h =>
    rcases bodyHeadersComplete_ok h with ⟨-, -, -, ⟨-, rfl⟩ | ⟨-, rfl⟩⟩ | ⟨-, -, rfl⟩ | ⟨-, -, rfl⟩
    · exact State.noConfusion
    · exact State.noConfusion
    · split <;> exact State.noConfusion
    · exact State.noConfusion

end Wire

theorem resultOf_eq_error {p : Core} : p.resultOf = .Error ↔ p.state = .Error := by
  unfold resultOf
  split
  · rename_i h
    simp [h]
  · rename_i h
    simp [h]
  · rename_i h
    constructor
    · intro hresult
      cases hresult
    · exact fun hstate => absurd hstate h

theorem parseHeadersComplete_error (p : Core) :
    p.parseHeadersComplete.2.state = .Error ↔ p.parseHeadersComplete.1 = false := by
  constructor
  · intro h
    by_contra haccepted
    have haccepted := Bool.eq_true_of_not_eq_false haccepted
    exact parseHeadersComplete_state (Prod.ext haccepted rfl) h
  · exact parseHeadersComplete_reports p

end JobHttpParser.Core

section Wire

variable {method : HttpMethod} {mode : BodyMode} {callback : Bool}

/-- Behind a status line the text of a header without control characters gives the header back. The
message is accepted exactly if its framing fields are valid, and skipped if it is an interim one. -/
theorem parse_toString {header : JobHttpHeader} (hsend : Sendable header)
    (hplain : ∀ field ∈ header.fields, field.value.any isControl = false) {line : Bytes} {q : Core}
    (hline : (Core.fresh method mode callback).parseStatusLine line = (true, q))
    (hroom : line.length + 2 ≤ kLineBufferSize) :
    ∃ result p rest, (JobHttpParser.fresh method mode callback).parse
        (line ++ crlf ++ header.toString) = (result, p, rest) ∧
      (result ≠ .Error ↔ FramingValid method q.response.code header) ∧
      (¬ Interim q.response.code → p.response.headers = header) ∧
      (Interim q.response.code → FramingValid method q.response.code header →
        p.state = .StatusLine ∧ p.response = .cleared) := by
  obtain ⟨hrun, hmethod⟩ := run_header hsend hplain hline hroom
  have hvalid := parseHeadersComplete_iff ((q.setState .Headers).setHeaders header)
  rw [hmethod] at hvalid
  have hresponse (h : ¬ Interim q.response.code) := @parseHeadersComplete_response
    ((q.setState .Headers).setHeaders header) h
  rcases hparse : (JobHttpParser.fresh method mode callback).parse (line ++ crlf ++ header.toString) with
    ⟨result, p, rest⟩
  obtain ⟨-, hagree, hresult, -, -⟩ := parse_spec (settled_fresh method mode callback) hparse
  have hagree : Agree (p.toCore, rest) (reader.run (Core.fresh method mode callback) _) := hagree
  rw [hrun] at hagree
  have hsame : p.response = ((q.setState .Headers).setHeaders header).parseHeadersComplete.2.response ∧
      p.state = ((q.setState .Headers).setHeaders header).parseHeadersComplete.2.state := by
    rcases hagree with heq | ⟨herror, herror', hview⟩
    · exact ⟨congrArg (fun x => x.1.response) heq, congrArg (fun x => x.1.state) heq⟩
    · have hresponses := congrArg Core.response (hview : p.toCore.withBuffer [] = Core.withBuffer _ [])
      exact ⟨hresponses, herror.trans herror'.symm⟩
  refine ⟨result, p, rest, rfl, ?_, ?_, ?_⟩
  · rw [hresult, ne_eq, resultOf_eq_error, hsame.2, parseHeadersComplete_error, Bool.not_eq_false]
    exact hvalid
  · intro hfinal
    rw [hsame.1, hresponse hfinal]
    rfl
  · intro hinterim hframing
    have hinterim' := parseHeadersComplete_interim (Prod.ext (hvalid.mpr hframing) rfl) hinterim
    rw [hsame.1, hsame.2]
    exact ⟨hinterim'.1, hinterim'.2.2⟩

def plainStatus : Bytes := ascii "HTTP/1.1 200 OK".toList

/-- A header with the one field. -/
def lengthHeader (value : Bytes) : JobHttpHeader :=
  ⟨[⟨contentLengthName, ascii "Content-Length".toList, value⟩]⟩

theorem sendable_lengthHeader {value : Bytes}
    (h : JobHttpHeader.empty.append (ascii "Content-Length".toList) value = some (lengthHeader value))
    (hfits : ∀ field ∈ (lengthHeader value).fields, field.line.length + 2 ≤ kLineBufferSize) :
    Sendable (lengthHeader value) :=
  ⟨.append .empty h, (by decide : 1 ≤ kMaxHeaderFields), hfits⟩

theorem plainStatus_parsed : ∃ q, (Core.fresh .Get .Store false).parseStatusLine plainStatus = (true, q) ∧
    q.response.code = 200 :=
  ⟨((Core.fresh .Get .Store false).parseStatusLine plainStatus).2, by decide, by decide⟩

/-- `Content-Length: 0` comes back. -/
theorem parse_toString_length : ∃ result p rest, (JobHttpParser.fresh .Get .Store false).parse
    (plainStatus ++ crlf ++ (lengthHeader [48]).toString) = (result, p, rest) ∧ result ≠ .Error ∧
      p.response.headers = lengthHeader [48] := by
  obtain ⟨q, hq, hcode⟩ := plainStatus_parsed
  have hsend : Sendable (lengthHeader [48]) := sendable_lengthHeader (by decide) (by decide)
  obtain ⟨result, p, rest, hparse, hvalid, hheaders, -⟩ := parse_toString hsend (by decide) hq (by decide)
  rw [hcode] at hvalid hheaders
  refine ⟨result, p, rest, hparse, hvalid.mpr ⟨fun _ => ⟨0, Nat.zero_le _, by decide⟩, ?_⟩, hheaders ?_⟩
  · exact fun _ h => absurd h (by decide)
  · exact fun h => absurd h.2.1 (by decide)

/-- The parser accepts the header behind the status line and has its field list. -/
def ReadsBack (line : Bytes) (header : JobHttpHeader) : Prop :=
  ∀ (method : HttpMethod) (mode : BodyMode) (callback : Bool),
    ((JobHttpParser.fresh method mode callback).parse (line ++ crlf ++ header.toString)).1 ≠ .Error ∧
    ((JobHttpParser.fresh method mode callback).parse
      (line ++ crlf ++ header.toString)).2.1.response.headers = header

theorem not_readsBack {line left : Bytes} {header : JobHttpHeader} {r : Core}
    (hrun : reader.run (Core.fresh .Get .Store false) (line ++ crlf ++ header.toString) = (r, left))
    (h : r.state = .Error ∨ r.response.headers ≠ header) : ¬ ReadsBack line header := by
  intro hback
  obtain ⟨hresult, hheaders⟩ := hback .Get .Store false
  rcases hparse : (JobHttpParser.fresh .Get .Store false).parse (line ++ crlf ++ header.toString) with
    ⟨result, p, rest⟩
  rw [hparse] at hresult hheaders
  obtain ⟨-, hagree, hresultOf, -⟩ := parse_spec (settled_fresh .Get .Store false) hparse
  have hagree : Agree (p.toCore, rest) (reader.run (Core.fresh .Get .Store false) _) := hagree
  rw [hresultOf, ne_eq, resultOf_eq_error] at hresult
  rw [hrun] at hagree
  rcases hagree with heq | ⟨herror, -⟩
  · obtain ⟨rfl⟩ := Prod.mk.inj heq
    exact h.elim hresult fun hother => hother hheaders
  · exact hresult herror

def continueStatus : Bytes := ascii "HTTP/1.1 100 Continue".toList

def controlHeader : JobHttpHeader := ⟨[⟨ascii ['x'], ascii ['X'], [1]⟩]⟩

/-- A length that is no number is refused, the fields of an interim response are dropped, and a value
with a control character, which the mutators let through, is refused. -/
theorem some_not_readBack :
    (Sendable (lengthHeader [120]) ∧ ¬ ReadsBack plainStatus (lengthHeader [120])) ∧
    (Sendable (lengthHeader [48]) ∧ ¬ ReadsBack continueStatus (lengthHeader [48])) ∧
    (Sendable controlHeader ∧ ¬ ReadsBack plainStatus controlHeader) := by
  have hbuilt : Built controlHeader := @Built.append .empty _ (ascii ['X']) [1] .empty (by decide)
  refine ⟨⟨sendable_lengthHeader (by decide) (by decide), ?_⟩,
    ⟨sendable_lengthHeader (by decide) (by decide), ?_⟩, ⟨hbuilt, by decide, by decide⟩, ?_⟩
  · exact not_readsBack rfl (Or.inl (by decide))
  · exact not_readsBack rfl (Or.inr (by decide))
  · exact not_readsBack rfl (Or.inl (by decide))

end Wire

end JobNet
