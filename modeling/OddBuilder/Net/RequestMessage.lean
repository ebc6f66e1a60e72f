import OddBuilder.Net.Chunked
import OddBuilder.Net.Request

/-!
# Request messages

A reader for one request message as RFC 9112 has it: the request line of section 3
with a target in origin form, the field lines of section 5, and a body of the length
that section 6.3 determines. A line ends in CR LF and holds no other control
character than the tab; a section with both framing fields, or with values of
Content-Length that differ, is no message. What a chunk extension says is not
looked into.
-/

namespace JobNet

open JobHttpHeader JobHttpParser Core List JobUrl

structure RequestMessage where
  method : Bytes
  target : Bytes
  fields : List (Bytes × Bytes)
  body : Bytes
deriving DecidableEq

namespace RequestMessage

variable {n : Nat} {line : Bytes}

/-- A line, and what follows it. -/
def readLine (data : Bytes) : Option (Bytes × Bytes) :=
  (findCrlf data).map fun i => (data.take i, data.drop (i + 2))

/-- A character of a path or a query that stands for itself. -/
def isUriChar (c : UInt8) : Bool := JobUrl.isUnreserved c || c ∈ ascii "!$&'()*+,;=:@/?".toList

/-- The text of a path or a query: such characters and escapes. -/
def isUriText : Bytes → Bool
  | 37 :: high :: low :: text =>
    (digitValue high).isSome && (digitValue low).isSome && isUriText text
  | c :: text => isUriChar c && isUriText text
  | [] => true

def isOriginForm (target : Bytes) : Bool := target.head? = some 47 && isUriText target

/-- The method and the target of a request line. -/
def readRequestLine (line : Bytes) : Option (Bytes × Bytes) :=
  (find 32 line).bind fun i =>
    let rest := line.drop (i + 1)
    (find 32 rest).bind fun j =>
      if isValidFieldName (line.take i) && isOriginForm (rest.take j) &&
          rest.drop (j + 1) = ascii "HTTP/1.1".toList then
        some (line.take i, rest.take j)
      else none

def readField (line : Bytes) : Option (Bytes × Bytes) :=
  (find 58 line).bind fun i =>
    if isValidFieldName (line.take i) && !(line.drop (i + 1)).any isControl then
      some (line.take i, trimOws (line.drop (i + 1)))
    else none

/-- The field lines up to the empty line, and what follows that. -/
def readFields : Nat → Bytes → Option (List (Bytes × Bytes) × Bytes)
  | 0, _ => none
  | n + 1, data =>
    (readLine data).bind fun (line, rest) =>
      if line = [] then some ([], rest)
      else
        (readField line).bind fun field =>
          (readFields n rest).map fun (fields, rest) => (field :: fields, rest)

def headerOf (fields : List (Bytes × Bytes)) : JobHttpHeader :=
  ⟨fields.map fun (name, value) => ⟨normalizeKey name, name, value⟩⟩

/-- The length of a request body; `none` where the framing is invalid. -/
def requestLength (headers : JobHttpHeader) : Option MessageLength :=
  if headers.contains transferEncodingName then
    if headers.contains contentLengthName then none
    else if chunkedIsFinal (headers.listMembers transferEncodingName) then some .chunked
    else none
  else if headers.contains contentLengthName then
    (commonDecimal (headers.listMembers contentLengthName)).map .octets
  else some .empty

/-- The size in a chunk line. -/
def chunkSize (line : Bytes) : Option Nat :=
  if line.any isControl then none else hexadecimal (Core.sizeTextOf line)

/-- What follows a chunked body. -/
def readChunks : Nat → Bytes → Option Bytes
  | 0, _ => none
  | n + 1, data =>
    (readLine data).bind fun (line, rest) =>
      (chunkSize line).bind fun size =>
        if size = 0 then (readFields rest.length rest).map Prod.snd
        else if (rest.drop size).take 2 = crlf then readChunks n (rest.drop (size + 2))
        else none

/-- What follows the body of this length. -/
def afterBody (data : Bytes) : MessageLength → Option Bytes
  | .empty => some data
  | .octets n => if n ≤ data.length then some (data.drop n) else none
  | .chunked => readChunks data.length data
  | .tunnel | .untilClose => none

/-- The body, and what follows it. -/
def readBody (headers : JobHttpHeader) (data : Bytes) : Option (Bytes × Bytes) :=
  (requestLength headers).bind fun length =>
    (afterBody data length).map fun rest => (data.take (data.length - rest.length), rest)

/-- The message in front of the data, and what follows it. -/
def read (data : Bytes) : Option (RequestMessage × Bytes) :=
  (readLine data).bind fun (line, rest) =>
    (readRequestLine line).bind fun (method, target) =>
      (readFields rest.length rest).bind fun (fields, rest) =>
        (readBody (headerOf fields) rest).map fun (body, rest) =>
          (⟨method, target, fields, body⟩, rest)

example : (read (ascii "PUT /a?b HTTP/1.1\r\nHost: h\r\nContent-Length: 2\r\n\r\nokGET".toList)) =
    some (⟨ascii "PUT".toList, ascii "/a?b".toList,
      [(ascii "Host".toList, ascii ['h']), (ascii "Content-Length".toList, ascii ['2'])],
      ascii "ok".toList⟩, ascii "GET".toList) := by
  decide

theorem readLine_append (h : 13 ∉ line) (rest : Bytes) :
    readLine (line ++ 13 :: 10 :: rest) = some (line, rest) := by
  have hdrop : (line ++ 13 :: 10 :: rest).drop (line.length + 2) = rest := by
    simp
  rw [readLine, findCrlf_append h, Option.map_some, hdrop, take_left]

/-- What holds of the numbers of all bytes. -/
theorem forall_byte {p : UInt8 → Bool} (h : ∀ n < 256, p (UInt8.ofNat n) = true) (c : UInt8) :
    p c = true := by
  rw [← UInt8.ofNat_toNat (x := c)]
  exact h c.toNat c.toNat_lt

/-- A printable character of ASCII other than the space. -/
def isVisible (c : UInt8) : Bool := 32 < c && c < 127

set_option maxRecDepth 4096 in
theorem isVisible_of_isUriChar {c : UInt8} (h : isUriChar c = true) : isVisible c = true := by
  have hall := forall_byte (p := fun c => !isUriChar c || isVisible c) (by decide) c
  simpa [h] using hall

set_option maxRecDepth 4096 in
theorem isVisible_of_digit {c : UInt8} (h : (digitValue c).isSome = true) : isVisible c = true := by
  have hall := forall_byte (p := fun c => !(digitValue c).isSome || isVisible c) (by decide) c
  simpa [h] using hall

theorem uriText_visible {text : Bytes} (h : isUriText text = true) :
    ∀ c ∈ text, isVisible c = true := by
  induction text using isUriText.induct with
  | case1 high low text ih =>
    simp only [isUriText, Bool.and_eq_true] at h
    intro c hc
    rcases mem_cons.1 hc with rfl | hc
    · decide
    rcases mem_cons.1 hc with rfl | hc
    · exact isVisible_of_digit h.1.1
    rcases mem_cons.1 hc with rfl | hc
    · exact isVisible_of_digit h.1.2
    · exact ih h.2 c hc
  | case2 b text hnot ih =>
    rw [isUriText, Bool.and_eq_true] at h
    · intro c hc
      rcases mem_cons.1 hc with rfl | hc
      · exact isVisible_of_isUriChar h.1
      · exact ih h.2 c hc
    · exact hnot
  | case3 => simp

theorem isUriText_append {front : Bytes} (h : isUriText front = true) (text : Bytes) :
    isUriText (front ++ text) = isUriText text := by
  induction front using isUriText.induct with
  | case1 high low front ih =>
    simp only [isUriText, Bool.and_eq_true] at h
    simp only [cons_append, isUriText, h.1.1, h.1.2]
    exact ih h.2
  | case2 b front hnot ih =>
    rw [isUriText, Bool.and_eq_true] at h
    · have hb : b ≠ 37 := by
        rintro rfl
        exact absurd h.1 (by decide)
      rw [cons_append, isUriText, h.1]
      · exact ih h.2
      · intro high low rest hb'
        exact absurd hb' hb
    · exact hnot
  | case3 => rfl

set_option maxRecDepth 4096 in
theorem isUriText_encodedByte (c : UInt8) : isUriText (encodedByte c) = true :=
  forall_byte (p := fun c => isUriText (encodedByte c)) (by decide) c

theorem isUriText_encodedChar (c : UInt8) : isUriText (encodedChar true c) = true := by
  unfold encodedChar
  split
  · decide
  · exact isUriText_encodedByte c

theorem isUriText_uriEncode (text : Bytes) : isUriText (uriEncode true text) = true := by
  induction text using uriEncode.induct with
  | case1 c high low rest decoded hdecoded ih =>
    simp only [uriEncode, hdecoded]
    rw [isUriText_append (isUriText_encodedByte decoded)]
    exact ih
  | case2 c high low rest hnone ih =>
    simp only [uriEncode, hnone]
    rw [isUriText_append (isUriText_encodedChar c)]
    exact ih
  | case3 text hshort =>
    rw [uriEncode]
    · clear hshort
      induction text with
      | nil => rfl
      | cons c text ih =>
        rw [flatMap_cons, isUriText_append (isUriText_encodedChar c)]
        exact ih
    · exact hshort

/-- An escape is not empty and does not begin with a slash. -/
theorem head_encodedByte (c : UInt8) :
    encodedByte c ≠ [] ∧ (encodedByte c).head? ≠ some 47 := by
  unfold encodedByte
  split
  · rename_i h
    refine ⟨by simp, ?_⟩
    rintro heq
    simp only [List.head?_cons, Option.some.injEq] at heq
    rw [heq] at h
    exact absurd h (by decide)
  · simp

theorem head_encodedChar (c : UInt8) : encodedChar true c ≠ [] ∧
    ((encodedChar true c).head? = some 47 ↔ c = 47) := by
  unfold encodedChar
  by_cases hc : c = 47
  · simp [hc]
  · simp only [hc, iff_false]
    exact head_encodedByte c

/-- What is written for the first character of a path. -/
theorem exists_uriEncode {text : Bytes} (hne : text ≠ []) : ∃ front rest,
    uriEncode true text = front ++ rest ∧ front ≠ [] ∧
      (front.head? = some 47 ↔ text.head? = some 47) := by
  rw [uriEncode.eq_def]
  split
  · rename_i c high low rest
    split
    · rename_i decoded hdecoded
      have hc : c = 37 := by
        unfold escapedByte at hdecoded
        split at hdecoded
        · assumption
        · cases hdecoded
      refine ⟨_, _, rfl, (head_encodedByte decoded).1, ?_⟩
      simp [hc, (head_encodedByte decoded).2]
    · refine ⟨_, _, rfl, (head_encodedChar c).1, ?_⟩
      rw [(head_encodedChar c).2, List.head?_cons, Option.some.injEq]
  · obtain ⟨c, text, rfl⟩ := exists_cons_of_ne_nil hne
    refine ⟨_, _, flatMap_cons, (head_encodedChar c).1, ?_⟩
    rw [(head_encodedChar c).2, List.head?_cons, Option.some.injEq]

theorem head_target (request : JobHttpRequest) : request.target.head? = some 47 ↔
    request.url.path = [] ∨ request.url.path.head? = some 47 := by
  unfold JobHttpRequest.target encodedPath
  split
  · rename_i hempty
    simp [hempty]
  · rename_i hne
    obtain ⟨front, rest, heq, hfront, hhead⟩ := exists_uriEncode hne
    rw [heq, append_assoc, List.head?_append_of_ne_nil _ hfront, hhead]
    simp [hne]

/-- A target is in origin form when the path is rooted and the query is the text of a query. -/
theorem isOriginForm_target (request : JobHttpRequest) :
    isOriginForm request.target = true ↔
      (request.url.path = [] ∨ request.url.path.head? = some 47) ∧
        isUriText request.url.query = true := by
  have hpath : isUriText request.url.encodedPath = true := by
    unfold encodedPath
    split
    · decide
    · exact isUriText_uriEncode _
  have hquery : isUriText request.target = isUriText request.url.query := by
    rw [JobHttpRequest.target, isUriText_append hpath]
    split
    · rename_i hempty
      rw [hempty]
    · rfl
  rw [isOriginForm, Bool.and_eq_true, hquery, decide_eq_true_iff, head_target]

theorem length_le_flatMap {α : Type} {f : α → Bytes} (h : ∀ a, 1 ≤ (f a).length) (list : List α) :
    list.length ≤ (list.flatMap f).length := by
  induction list with
  | nil => simp
  | cons a list ih =>
    have ha := h a
    rw [flatMap_cons, length_append, length_cons]
    omega

/-- A field that a reader gets back. -/
structure Readable (field : Bytes × Bytes) : Prop where
  name : isValidFieldName field.1 = true
  value : field.2.any isControl = false
  trimmed : Trimmed field.2

theorem trimOws_space (v : Bytes) : trimOws (32 :: v) = trimOws v := by
  simp [trimOws, isOws]

theorem readField_line {name value : Bytes} (hname : isValidFieldName name = true)
    (hvalue : value.any isControl = false) :
    readField (name ++ 58 :: value) = some (name, trimOws value) := by
  have hdrop : (name ++ 58 :: value).drop (name.length + 1) = value := by
    simp
  rw [readField, find_append (tchar_not hname (by decide)), Option.bind_some, hdrop, take_left,
    hname, hvalue]
  rfl

theorem readable_of_readField {field : Bytes × Bytes} (h : readField line = some field) :
    Readable field := by
  obtain ⟨i, hi, hfield⟩ := Option.bind_eq_some_iff.1 h
  split at hfield
  · rename_i hok
    rw [Bool.and_eq_true, Bool.not_eq_true'] at hok
    cases hfield
    refine ⟨hok.1, ?_, trimmed_trimOws _⟩
    rw [any_eq_false]
    intro c hc
    rw [any_eq_false] at hok
    exact hok.2 c (mem_of_mem_trimOws hc)
  · cases hfield

/-- A line with any white space around its value. -/
def looseLine (line : Bytes × Bytes) : Bytes := line.1 ++ 58 :: (line.2 ++ [13, 10])

theorem readFields_looseLines {lines : List (Bytes × Bytes)}
    (h : ∀ line ∈ lines, isValidFieldName line.1 = true ∧ line.2.any isControl = false)
    (rest : Bytes) (hn : lines.length < n) :
    readFields n (lines.flatMap looseLine ++ 13 :: 10 :: rest) =
      some (lines.map fun line => (line.1, trimOws line.2), rest) := by
  induction lines generalizing n with
  | nil =>
    obtain ⟨n, rfl⟩ := Nat.exists_eq_succ_of_ne_zero (Nat.ne_of_gt hn)
    rfl
  | cons line lines ih =>
    obtain ⟨n, rfl⟩ := Nat.exists_eq_succ_of_ne_zero (Nat.ne_of_gt (Nat.zero_lt_of_lt hn))
    obtain ⟨hname, hvalue⟩ := h line mem_cons_self
    have hreturn : 13 ∉ line.1 ++ 58 :: line.2 := by
      simp only [mem_append, mem_cons, not_or]
      exact ⟨tchar_not hname (by decide), by decide, control_not hvalue (by decide)⟩
    have hdata : (line :: lines).flatMap looseLine ++ 13 :: 10 :: rest =
        (line.1 ++ 58 :: line.2) ++ 13 :: 10 :: (lines.flatMap looseLine ++ 13 :: 10 :: rest) := by
      simp [looseLine]
    have ih := ih (fun line' hmem => h line' (mem_cons_of_mem _ hmem))
      (Nat.lt_of_succ_lt_succ hn)
    rw [hdata, readFields, readLine_append hreturn]
    simp [readField_line hname hvalue, ih]

/-- The lines of readable fields are read back as these fields. -/
theorem readFields_lines {fields : List (Bytes × Bytes)} (h : ∀ field ∈ fields, Readable field)
    (rest : Bytes) (hn : fields.length < n) :
    readFields n ((fields.flatMap fun field => JobHttpClient.fieldLine field.1 field.2) ++
      13 :: 10 :: rest) = some (fields, rest) := by
  have hloose : ∀ line ∈ fields.map fun field => (field.1, 32 :: field.2),
      isValidFieldName line.1 = true ∧ line.2.any isControl = false := by
    intro line hline
    obtain ⟨field, hfield, rfl⟩ := mem_map.1 hline
    refine ⟨(h field hfield).name, ?_⟩
    rw [any_cons, (h field hfield).value]
    decide
  have hread := readFields_looseLines hloose rest (n := n) (by rwa [length_map])
  have hlines : (fields.map fun field => (field.1, 32 :: field.2)).flatMap looseLine =
      fields.flatMap fun field => JobHttpClient.fieldLine field.1 field.2 := by
    rw [flatMap_map]
    rfl
  have hfields : (fields.map fun field => (field.1, 32 :: field.2)).map
      (fun line => (line.1, trimOws line.2)) = fields.map id := by
    rw [map_map]
    refine map_congr_left fun field hfield => ?_
    simp only [Function.comp_apply, trimOws_space, (h field hfield).trimmed.trimOws_eq]
    rfl
  rw [← hlines, hread, hfields, map_id]

theorem readable_of_readFields {data rest : Bytes} {fields : List (Bytes × Bytes)}
    (h : readFields n data = some (fields, rest)) : ∀ field ∈ fields, Readable field := by
  induction n generalizing data fields rest with
  | zero => cases h
  | succ n ih =>
    obtain ⟨⟨line⟩, -, h⟩ := Option.bind_eq_some_iff.1 h
    simp only at h
    split at h
    · cases h
      simp
    · obtain ⟨field, hfield, h⟩ := Option.bind_eq_some_iff.1 h
      obtain ⟨⟨others⟩, hothers, h⟩ := Option.map_eq_some_iff.1 h
      cases h
      intro field' hmem
      rcases mem_cons.1 hmem with rfl | hmem
      · exact readable_of_readField hfield
      · exact ih hothers field' hmem

theorem readRequestLine_line {method target : Bytes} (hmethod : isValidFieldName method = true)
    (htarget : isOriginForm target = true) :
    readRequestLine (method ++ 32 :: (target ++ 32 :: ascii "HTTP/1.1".toList)) =
      some (method, target) := by
  have htext : isUriText target = true := by
    rw [isOriginForm, Bool.and_eq_true] at htarget
    exact htarget.2
  have hspace : 32 ∉ target := by
    intro hmem
    exact absurd (uriText_visible htext _ hmem) (by decide)
  have hfirst : find 32 (method ++ 32 :: (target ++ 32 :: ascii "HTTP/1.1".toList)) =
      some method.length := find_append (tchar_not hmethod (by decide)) _
  have hdrop : (method ++ 32 :: (target ++ 32 :: ascii "HTTP/1.1".toList)).drop (method.length + 1) =
      target ++ 32 :: ascii "HTTP/1.1".toList := by
    simp
  have hversion : (target ++ 32 :: ascii "HTTP/1.1".toList).drop (target.length + 1) =
      ascii "HTTP/1.1".toList := by
    simp
  simp only [readRequestLine, hfirst, Option.bind_some, hdrop, find_append hspace, hversion,
    take_left, hmethod, htarget, decide_true, Bool.and_self, if_true]

theorem of_readRequestLine {method target : Bytes}
    (h : readRequestLine line = some (method, target)) :
    isValidFieldName method = true ∧ isOriginForm target = true := by
  obtain ⟨i, -, h⟩ := Option.bind_eq_some_iff.1 h
  obtain ⟨j, -, h⟩ := Option.bind_eq_some_iff.1 h
  split at h
  · rename_i hok
    rw [Bool.and_eq_true, Bool.and_eq_true] at hok
    cases h
    exact hok.1
  · cases h

end RequestMessage

end JobNet
