import OddBuilder.Net.Header
import OddBuilder.Net.Parser
import OddBuilder.Net.Url

/-!
# Building a header

The mutators of `JobHttpHeader`; `none` is a call that returns false. Whatever they
build, the names of its fields are tokens and its values are trimmed and hold no
line end.
-/

namespace JobNet

open JobHttpHeader List

namespace JobHttpHeader

def indexOf (header : JobHttpHeader) (name : Bytes) : Option Nat :=
  header.fields.findIdx? fun f => equalsIgnoreCase f.name name

def lastIndexOf (header : JobHttpHeader) (name : Bytes) : Option Nat :=
  (header.fields.reverse.findIdx? fun f => equalsIgnoreCase f.name name).map fun i =>
    header.fields.length - 1 - i

def isCombinable (name : Bytes) : Bool := !equalsIgnoreCase name (ascii "set-cookie".toList)

def insert (header : JobHttpHeader) (name value : Bytes) (pos : Nat) : Option JobHttpHeader :=
  (makeField name value).map fun field =>
    ⟨header.fields.take pos ++ field :: header.fields.drop pos⟩

def prepend (header : JobHttpHeader) (name value : Bytes) : Option JobHttpHeader :=
  header.insert name value 0

/-- The first field of the name keeps its place, the later ones go. -/
def set (header : JobHttpHeader) (name value : Bytes) : Option JobHttpHeader :=
  (makeField name value).map fun field =>
    match header.indexOf field.name with
    | none => ⟨header.fields ++ [field]⟩
    | some pos =>
      ⟨header.fields.take pos ++ field ::
        (header.fields.drop (pos + 1)).filter fun f => f.name ≠ field.name⟩

/-- The value of a field with more members. -/
def joined (existing value : Bytes) : Bytes :=
  (if existing ≠ [] && value ≠ [] then existing ++ ascii [',', ' '] else existing) ++ value

def appendToList (header : JobHttpHeader) (name value : Bytes) : Option JobHttpHeader :=
  if !isCombinable name then none
  else
    (makeField name value).map fun field =>
      match header.lastIndexOf field.name with
      | none => ⟨header.fields ++ [field]⟩
      | some pos =>
        ⟨header.fields.modify pos fun f => { f with value := joined f.value field.value }⟩

def replace (header : JobHttpHeader) (pos : Nat) (name value : Bytes) : Option JobHttpHeader :=
  if header.fields.length ≤ pos then none
  else (makeField name value).map fun field => ⟨header.fields.set pos field⟩

def removeAt (header : JobHttpHeader) (pos : Nat) : Option JobHttpHeader :=
  if header.fields.length ≤ pos then none else some ⟨header.fields.eraseIdx pos⟩

def removeAll (header : JobHttpHeader) (name : Bytes) : JobHttpHeader :=
  ⟨header.fields.filter fun f => !equalsIgnoreCase f.name name⟩

/-- What calls of the mutators can make of an empty header. -/
inductive Built : JobHttpHeader → Prop
  | empty : Built .empty
  | append {header header' name value} (h : Built header)
      (hcall : header.append name value = some header') : Built header'
  | insert {header header' name value pos} (h : Built header)
      (hcall : header.insert name value pos = some header') : Built header'
  | set {header header' name value} (h : Built header)
      (hcall : header.set name value = some header') : Built header'
  | appendToList {header header' name value} (h : Built header)
      (hcall : header.appendToList name value = some header') : Built header'
  | replace {header header' pos name value} (h : Built header)
      (hcall : header.replace pos name value = some header') : Built header'
  | removeAt {header header' pos} (h : Built header)
      (hcall : header.removeAt pos = some header') : Built header'
  | removeAll {header name} (h : Built header) : Built (header.removeAll name)

end JobHttpHeader

structure Trimmed (v : Bytes) : Prop where
  head : ∀ c ∈ v.head?, isOws c = false
  last : ∀ c ∈ v.getLast?, isOws c = false

theorem head_dropWhile {v : Bytes} : ∀ c ∈ (v.dropWhile isOws).head?, isOws c = false := by
  intro c hc
  have hne : v.dropWhile isOws ≠ [] := by
    rintro hnil
    simp [hnil] at hc
  have hhead := head_dropWhile_not isOws hne
  rw [List.head?_eq_some_head hne, Option.mem_some_iff] at hc
  rw [← hc]
  exact hhead

theorem dropWhile_eq_self {v : Bytes} (h : ∀ c ∈ v.head?, isOws c = false) :
    v.dropWhile isOws = v := by
  cases v with
  | nil => rfl
  | cons c v => rw [dropWhile_cons_of_neg (by simp [h c rfl])]

theorem Trimmed.trimOws_eq {v : Bytes} (h : Trimmed v) : trimOws v = v := by
  rw [trimOws, dropWhile_eq_self h.head, dropWhile_eq_self, reverse_reverse]
  rw [List.head?_reverse]
  exact h.last

theorem trimmed_trimOws (v : Bytes) : Trimmed (trimOws v) := by
  constructor
  · intro c hc
    rw [trimOws, List.head?_reverse] at hc
    have hsuffix := dropWhile_suffix isOws (l := (v.dropWhile isOws).reverse)
    have hlast : ((v.dropWhile isOws).reverse).getLast? = some c := by
      obtain ⟨front, hfront⟩ := hsuffix
      rw [← hfront, List.getLast?_append, hc]
      rfl
    rw [List.getLast?_reverse] at hlast
    exact head_dropWhile c hlast
  · intro c hc
    rw [trimOws, List.getLast?_reverse] at hc
    exact head_dropWhile c hc

theorem trimOws_eq_self {v : Bytes} : trimOws v = v ↔ Trimmed v := by
  constructor
  · intro h
    rw [← h]
    exact trimmed_trimOws v
  · exact Trimmed.trimOws_eq

theorem trimmed_joined {first second : Bytes} (hfirst : Trimmed first) (hsecond : Trimmed second) :
    Trimmed (joined first second) := by
  by_cases hempty : first = []
  · rw [hempty]
    exact hsecond
  by_cases hempty' : second = []
  · simpa [joined, hempty'] using hfirst
  have heq : joined first second = first ++ (ascii [',', ' '] ++ second) := by
    simp [joined, hempty, hempty']
  rw [heq]
  constructor
  · rw [List.head?_append_of_ne_nil _ hempty]
    exact hfirst.head
  · rw [← append_assoc, List.getLast?_append_of_ne_nil _ hempty']
    exact hsecond.last

namespace JobHttpHeader

structure Field.Sound (field : Field) : Prop where
  display : isValidFieldName field.displayName = true
  name : field.name = normalizeKey field.displayName
  value : isValidFieldValue field.value = true
  trimmed : Trimmed field.value

theorem sound_makeField {name value : Bytes} {field : Field}
    (h : makeField name value = some field) : field.Sound := by
  unfold makeField at h
  split at h
  · cases h
  rename_i hname
  split at h
  · cases h
  rename_i hvalue
  cases h
  simp only [Bool.not_eq_true, Bool.not_eq_false'] at hname hvalue
  exact ⟨hname, rfl, hvalue, trimmed_trimOws value⟩

theorem isValidFieldValue_joined {first second : Bytes} (hfirst : isValidFieldValue first = true)
    (hsecond : isValidFieldValue second = true) : isValidFieldValue (joined first second) = true := by
  unfold isValidFieldValue joined at *
  split
  · rw [all_append, all_append, hfirst, hsecond]
    decide
  · rw [all_append, hfirst, hsecond]
    rfl

/-- A value joined with the value of another field. -/
theorem Field.Sound.joined {field other : Field} (h : field.Sound) (hother : other.Sound) :
    Field.Sound { field with value := joined field.value other.value } :=
  ⟨h.display, h.name, isValidFieldValue_joined h.value hother.value,
    trimmed_joined h.trimmed hother.trimmed⟩

/-- Every field of a header is sound. -/
def Sound (header : JobHttpHeader) : Prop := ∀ field ∈ header.fields, field.Sound

/-- Fields that were there or are sound. -/
theorem Sound.of_mem {header header' : JobHttpHeader} (h : header.Sound)
    (hmem : ∀ field ∈ header'.fields, field ∈ header.fields ∨ field.Sound) : header'.Sound := by
  intro field hfield
  rcases hmem field hfield with hold | hnew
  · exact h field hold
  · exact hnew

theorem Built.sound {header : JobHttpHeader} (h : Built header) : header.Sound := by
  induction h with
  | empty =>
    intro field hfield
    cases hfield
  | append _ hcall ih =>
    obtain ⟨new, hnew, rfl⟩ := Option.map_eq_some_iff.1 hcall
    refine ih.of_mem fun field hfield => ?_
    rcases mem_append.1 hfield with hfield | hfield
    · exact Or.inl hfield
    · rw [mem_singleton.1 hfield]
      exact Or.inr (sound_makeField hnew)
  | insert _ hcall ih =>
    obtain ⟨new, hnew, rfl⟩ := Option.map_eq_some_iff.1 hcall
    refine ih.of_mem fun field hfield => ?_
    rcases mem_append.1 hfield with hfield | hfield
    · exact Or.inl (mem_of_mem_take hfield)
    · rcases mem_cons.1 hfield with rfl | hfield
      · exact Or.inr (sound_makeField hnew)
      · exact Or.inl (mem_of_mem_drop hfield)
  | set _ hcall ih =>
    obtain ⟨new, hnew, hset⟩ := Option.map_eq_some_iff.1 hcall
    refine ih.of_mem fun field hfield => ?_
    split at hset
    · subst hset
      rcases mem_append.1 hfield with hfield | hfield
      · exact Or.inl hfield
      · rw [mem_singleton.1 hfield]
        exact Or.inr (sound_makeField hnew)
    · subst hset
      rcases mem_append.1 hfield with hfield | hfield
      · exact Or.inl (mem_of_mem_take hfield)
      · rcases mem_cons.1 hfield with rfl | hfield
        · exact Or.inr (sound_makeField hnew)
        · exact Or.inl (mem_of_mem_drop (mem_filter.1 hfield).1)
  | appendToList _ hcall ih =>
    unfold JobHttpHeader.appendToList at hcall
    split at hcall
    · cases hcall
    obtain ⟨new, hnew, hset⟩ := Option.map_eq_some_iff.1 hcall
    refine ih.of_mem fun field hfield => ?_
    split at hset
    · subst hset
      rcases mem_append.1 hfield with hfield | hfield
      · exact Or.inl hfield
      · rw [mem_singleton.1 hfield]
        exact Or.inr (sound_makeField hnew)
    · subst hset
      obtain ⟨i, hi, hget⟩ := mem_iff_getElem.1 hfield
      simp only [length_modify] at hi
      rw [getElem_modify] at hget
      split at hget
      · rw [← hget]
        exact Or.inr ((ih _ (getElem_mem hi)).joined (sound_makeField hnew))
      · rw [← hget]
        exact Or.inl (getElem_mem hi)
  | replace _ hcall ih =>
    unfold JobHttpHeader.replace at hcall
    split at hcall
    · cases hcall
    obtain ⟨new, hnew, rfl⟩ := Option.map_eq_some_iff.1 hcall
    refine ih.of_mem fun field hfield => ?_
    rcases mem_or_eq_of_mem_set hfield with hfield | rfl
    · exact Or.inl hfield
    · exact Or.inr (sound_makeField hnew)
  | removeAt _ hcall ih =>
    unfold JobHttpHeader.removeAt at hcall
    split at hcall
    · cases hcall
    cases hcall
    exact ih.of_mem fun field hfield => Or.inl ((eraseIdx_sublist _ _).subset hfield)
  | removeAll _ ih => exact ih.of_mem fun field hfield => Or.inl (mem_filter.1 hfield).1

end JobHttpHeader

end JobNet

/-!
## Requests on the wire

`JobHttpRequest`, what `beginRequest` asks of one before it opens a connection, and
the bytes that `buildRequestData` makes of it.
-/

namespace JobNet

/-- `JobHttpMethod::toString`. -/
def HttpMethod.toString : HttpMethod → Bytes
  | .Get => ascii "GET".toList
  | .Head => ascii "HEAD".toList
  | .Post => ascii "POST".toList
  | .Put => ascii "PUT".toList
  | .Delete => ascii "DELETE".toList
  | .Patch => ascii "PATCH".toList
  | .Options => ascii "OPTIONS".toList
  | .Connect => ascii "CONNECT".toList
  | .Trace => ascii "TRACE".toList
  | .Custom => []

structure JobHttpRequest where
  method : HttpMethod
  customMethod : Bytes
  url : JobUrl
  headers : JobHttpHeader
  body : Bytes
deriving DecidableEq

def hostName : Bytes := ascii "host".toList

namespace JobHttpRequest

def methodString (request : JobHttpRequest) : Bytes :=
  if request.method = .Custom then request.customMethod else request.method.toString

def isValid (request : JobHttpRequest) : Bool :=
  request.url.valid &&
    if request.method = .Custom then request.customMethod ≠ [] else request.methodString ≠ []

def target (request : JobHttpRequest) : Bytes :=
  request.url.encodedPath ++ if request.url.query = [] then [] else 63 :: request.url.query

end JobHttpRequest

/-- The port that the scheme stands for, or none. -/
def JobUrl.defaultPort (url : JobUrl) : Bool :=
  (url.scheme = .Http && (url.port = 0 || url.port = 80)) ||
    (url.scheme = .Https && (url.port = 0 || url.port = 443))

/-- The value of the Host field that the client writes. -/
def JobUrl.hostValue (url : JobUrl) : Bytes :=
  url.host ++
    if !url.defaultPort && url.port ≠ 0 then 58 :: ascii (Nat.toDigits 10 url.port.toNat) else []

namespace JobHttpClient

/-- A field line. -/
def fieldLine (name value : Bytes) : Bytes :=
  name ++ (ascii [':', ' '] ++ (value ++ ascii ['\r', '\n']))

def buildRequestData (request : JobHttpRequest) : Except String Bytes :=
  if request.methodString = [] then .error "HTTP request method is empty"
  else
    let requestLine := request.methodString ++ (32 :: request.target ++ ascii " HTTP/1.1\r\n".toList)
    let host :=
      if request.headers.contains hostName then []
      else fieldLine (ascii "Host".toList) request.url.hostValue
    let fields := request.headers.fields.flatMap fun field => fieldLine field.displayName field.value
    .ok (requestLine ++ (host ++ (fields ++ (ascii ['\r', '\n'] ++ request.body))))

/-- The part of `beginRequest` in front of the transport: what it refuses, or the data that it is
going to send. -/
def prepareRequest (resolver sslContext : Bool) (request : JobHttpRequest) : Except String Bytes :=
  if !request.isValid then .error "Invalid HTTP request"
  else if request.url.scheme ≠ .Http ∧ request.url.scheme ≠ .Https then
    .error "Unsupported HTTP URL scheme"
  else if !resolver then .error "HTTP client requires a resolver"
  else if request.url.scheme = .Https && !sslContext then
    .error "HTTPS request requires an SSL context"
  else buildRequestData request

/-- What is built is built for every request that has a method. -/
theorem prepareRequest_ok {resolver sslContext : Bool} {request : JobHttpRequest} {data : Bytes}
    (h : prepareRequest resolver sslContext request = .ok data) :
    buildRequestData request = .ok data := by
  unfold prepareRequest at h
  repeat' split at h
  · cases h
  · cases h
  · cases h
  · cases h
  · exact h

end JobHttpClient

end JobNet
