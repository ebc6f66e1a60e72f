import OddBuilder.Json.Types

/-!
# Parser

`JsonParser` and its destinations. The source's `depth` counts up to
`m_maxDepth`; here `levels` counts the levels that are left. A destination is
the value it holds when the parser comes to it, and the value it is left with
where the parse succeeds. The loops are given one turn for each byte that is
left; a loop that used them up, like a read past the end, is a `fault`, which is
no diagnostic.
-/

namespace JobJson

inductive JsonDiagnosticCode where
  | none
  | unexpectedEnd
  | unexpectedToken
  | invalidToken
  | invalidUnicode
  | expectedValue
  | expectedObjectKey
  | expectedNameSeparator
  | expectedValueSeparator
  | expectedArrayEnd
  | unknownMember
  | typeMismatch
  | invalidNull
  | containerError
  | maxDepthExceeded
deriving DecidableEq

inductive Stop where
  | fault
  | fail (code : JsonDiagnosticCode)
deriving DecidableEq

/-- A value and what is left of the source. -/
abbrev ParsedValue : Type := Except Stop (JsonValue × JsonCursor)

abbrev ParsedItems : Type := Except Stop (List JsonValue × JsonCursor)

def fail {α : Type} (code : JsonDiagnosticCode) : Except Stop α := .error (.fail code)

def nextLex (c : JsonCursor) : Except Stop (JsonLex × JsonCursor) :=
  match JsonLexer.next c with
  | none => .error .fault
  | some result => .ok result

theorem bind_ok_iff {α β : Type} {x : Except Stop α} {f : α → Except Stop β} {b : β} :
    (x >>= f) = .ok b ↔ ∃ a, x = .ok a ∧ f a = .ok b := by
  cases x with
  | error s => simp [bind, Except.bind]
  | ok a => simp [bind, Except.bind]

theorem bind_error_iff {α β : Type} {x : Except Stop α} {f : α → Except Stop β} {s : Stop} :
    (x >>= f) = .error s ↔ x = .error s ∨ ∃ a, x = .ok a ∧ f a = .error s := by
  cases x with
  | error t => simp [bind, Except.bind]
  | ok a => simp [bind, Except.bind]

theorem nextLex_ok_iff {c d : JsonCursor} {lex : JsonLex} :
    nextLex c = .ok (lex, d) ↔ JsonLexer.next c = some (lex, d) := by
  obtain ⟨lex', d', h⟩ := next_total c
  simp [nextLex, h]

theorem nextLex_total (c : JsonCursor) :
    ∃ lex d, nextLex c = .ok (lex, d) ∧ JsonLexer.next c = some (lex, d) := by
  obtain ⟨lex, d, h⟩ := next_total c
  exact ⟨lex, d, nextLex_ok_iff.mpr h, h⟩

variable {S : Type}

/-- What a wrapper holds, made on demand. -/
def materialize (schema : JsonSchema S) (w : JsonWrapper) (ty : JsonTy S) :
    JsonValue → Option JsonValue
  | .present v => some v
  | _ => if w.canMake then schema.defaultValue ty else none

/-- `withValue`: apply a function to what stands inside all wrappers. `refused` is the answer where
it cannot be made. -/
def withValue (schema : JsonSchema S) (refused : Stop)
    (function : JsonTy S → JsonValue → ParsedValue) :
    JsonTy S → JsonValue → ParsedValue
  | .wrapper w ty, dest =>
    match materialize schema w ty dest with
    | none => .error refused
    | some inner => do
      let (v, c) ← withValue schema refused function ty inner
      .ok (.present v, c)
  | ty, dest => function ty dest

def isWrapper : JsonTy S → Bool
  | .wrapper _ _ => true
  | _ => false

def storeBoolean (b : Bool) : JsonTy S → Option JsonValue
  | .bool => some (.bool b)
  | _ => none

def storeNumber (text : Bytes) : JsonTy S → Option JsonValue
  | .integer k => (parseInteger k text).map .integer
  | .enum k => (parseInteger k text).map .integer
  | _ => none

def storeString (s : Bytes) : JsonTy S → Option JsonValue
  | .string => some (.string s)
  | _ => none

/-- `boolean`, `number`, `string` and `stringOwned` of a destination. -/
def storeScalar (schema : JsonSchema S) (store : JsonTy S → Option JsonValue) (ty : JsonTy S)
    (dest : JsonValue) (c : JsonCursor) : ParsedValue :=
  withValue schema (.fail .typeMismatch)
    (fun ty _ =>
      match store ty with
      | none => fail .typeMismatch
      | some v => .ok (v, c))
    ty dest

/-- The text of a string token, decoded where it has escapes. -/
def stringText (lex : JsonLex) : Except Stop Bytes :=
  if !lex.hasEscapes then .ok (content lex)
  else
    match decode (content lex) with
    | none => .error .fault
    | some none => .error (.fail .invalidUnicode)
    | some (some s) => .ok s

/-- The loop of the growing containers: an element, then a separator or the end of the array. -/
def sequenceLoop (element : JsonLex → JsonCursor → ParsedValue)
    (add : List JsonValue → JsonValue → List JsonValue) :
    Nat → List JsonValue → JsonLex → JsonCursor → ParsedItems
  | 0, _, _, _ => .error .fault
  | turns + 1, vs, lex, c => do
    let (v, c) ← element lex c
    let vs := add vs v
    let (lex, c) ← nextLex c
    if lex.type = .endArray then .ok (vs, c)
    else if lex.type = .end then fail .unexpectedEnd
    else if lex.type ≠ .valueSeparator then fail .expectedValueSeparator
    else do
      let (lex, c) ← nextLex c
      if lex.type = .end then fail .unexpectedEnd
      else sequenceLoop element add turns vs lex c

/-- A growing container is cleared first. -/
def parseGrowing (element : JsonLex → JsonCursor → ParsedValue)
    (add : List JsonValue → JsonValue → List JsonValue) (c : JsonCursor) :
    ParsedItems := do
  let (lex, c) ← nextLex c
  if lex.type = .endArray then .ok ([], c)
  else if lex.type = .end then fail .unexpectedEnd
  else sequenceLoop element add (c.length + 1) [] lex c

/-- The loop over the elements of a fixed sequence, which are parsed in place. -/
def fixedLoop (element : JsonValue → JsonLex → JsonCursor → ParsedValue) :
    List JsonValue → JsonLex → JsonCursor → ParsedItems
  | [], _, _ => fail .containerError
  | d :: ds, lex, c => do
    let (v, c) ← element d lex c
    let (lex, c) ← nextLex c
    if lex.type = .endArray then
      if ds = [] then .ok ([v], c) else fail .containerError
    else if lex.type = .end then fail .unexpectedEnd
    else if lex.type ≠ .valueSeparator then fail .expectedValueSeparator
    else do
      let (lex, c) ← nextLex c
      if lex.type = .end then fail .unexpectedEnd
      else if lex.type = .endArray then fail .expectedValue
      else do
        let (vs, c) ← fixedLoop element ds lex c
        .ok (v :: vs, c)

def parseFixedSequence (element : JsonValue → JsonLex → JsonCursor → ParsedValue)
    (ds : List JsonValue) (c : JsonCursor) : ParsedItems := do
  let (lex, c) ← nextLex c
  if lex.type = .endArray then
    if ds = [] then .ok ([], c) else fail .containerError
  else if lex.type = .end then fail .unexpectedEnd
  else fixedLoop element ds lex c

/-- A map entry is an array of a key and a value. -/
def parseEntry (key mapped : JsonCursor → ParsedValue) (lex : JsonLex) (c : JsonCursor) :
    ParsedValue :=
  if lex.type ≠ .beginArray then fail .containerError
  else do
    let (k, c) ← key c
    let (lex, c) ← nextLex c
    if lex.type = .end then fail .unexpectedEnd
    else if lex.type ≠ .valueSeparator then fail .expectedValueSeparator
    else do
      let (m, c) ← mapped c
      let (lex, c) ← nextLex c
      if lex.type = .end then fail .unexpectedEnd
      else if lex.type ≠ .endArray then fail .expectedArrayEnd
      else .ok (.entry k m, c)

/-- `JsonKeyDispatch::dispatch`: parse into the first member of that name; `none` where there is
none. -/
def dispatch (member : JsonTy S → JsonValue → JsonCursor → ParsedValue) (key : Bytes) :
    List (JsonMember S) → List JsonValue → JsonCursor → Option ParsedItems
  | m :: ms, d :: ds, c =>
    if key = m.name then
      some (do
        let (v, c) ← member m.type d c
        .ok (v :: ds, c))
    else
      (dispatch member key ms ds c).map fun result => do
        let (vs, c) ← result
        .ok (d :: vs, c)
  | _, _, _ => none

def objectLoop (member : JsonTy S → JsonValue → JsonCursor → ParsedValue)
    (ms : List (JsonMember S)) :
    Nat → List JsonValue → JsonLex → JsonCursor → ParsedItems
  | 0, _, _, _ => .error .fault
  | turns + 1, ds, lex, c =>
    if lex.type = .end then fail .unexpectedEnd
    else if lex.type = .invalid then fail .invalidToken
    else if lex.type ≠ .string then fail .expectedObjectKey
    else do
      let key ← stringText lex
      let (lex, c) ← nextLex c
      if lex.type ≠ .nameSeparator then fail .expectedNameSeparator
      else
        match dispatch member key ms ds c with
        | none => fail .unknownMember
        | some result => do
          let (ds, c) ← result
          let (lex, c) ← nextLex c
          if lex.type = .endObject then .ok (ds, c)
          else if lex.type = .end then fail .unexpectedEnd
          else if lex.type ≠ .valueSeparator then fail .expectedValueSeparator
          else do
            let (lex, c) ← nextLex c
            objectLoop member ms turns ds lex c

section Values

variable (schema : JsonSchema S)
  (parse : JsonTy S → JsonValue → JsonLex → JsonCursor → ParsedValue)

/-- The overload of `parseValue` that reads its own token. -/
def parseNext (ty : JsonTy S) (dest : JsonValue) (c : JsonCursor) : ParsedValue := do
  let (lex, c) ← nextLex c
  parse ty dest lex c

def parseObject (ty : JsonTy S) (dest : JsonValue) (c : JsonCursor) : ParsedValue :=
  match ty, dest with
  | .struct s, .items .object ds => do
    let (lex, c) ← nextLex c
    if lex.type = .endObject then .ok (dest, c)
    else do
      let (vs, c) ← objectLoop (parseNext parse) (schema.members s) (c.length + 1) ds lex c
      .ok (.items .object vs, c)
  | _, _ => fail .typeMismatch

def parsePushBackSequence (ty : JsonTy S) (c : JsonCursor) : ParsedValue :=
  match schema.defaultValue ty with
  | none => fail .containerError
  | some initial => do
    let (vs, c) ← parseGrowing (parse ty initial) (fun vs v => vs ++ [v]) c
    .ok (.items .sequence vs, c)

def parseInsertSequence (container : JsonContainer) (ty : JsonTy S) (c : JsonCursor) :
    ParsedValue :=
  match schema.defaultValue ty with
  | none => fail .containerError
  | some initial => do
    let (vs, c) ← parseGrowing (parse ty initial) container.insert c
    .ok (.items .set vs, c)

def parseMap (container : JsonContainer) (key mapped : JsonTy S) (c : JsonCursor) :
    ParsedValue :=
  match schema.defaultValue key, schema.defaultValue mapped with
  | some k, some m => do
    let (es, c) ← parseGrowing (parseEntry (parseNext parse key k) (parseNext parse mapped m))
      container.insert c
    .ok (.items .map es, c)
  | _, _ => fail .containerError

def parseArray (ty : JsonTy S) (dest : JsonValue) (c : JsonCursor) : ParsedValue :=
  match ty, dest with
  | .map container key mapped, _ => parseMap schema parse container key mapped c
  | .fixed _ ty, .items .sequence ds => do
    let (vs, c) ← parseFixedSequence (parse ty) ds c
    .ok (.items .sequence vs, c)
  | .pushBack ty, _ => parsePushBackSequence schema parse ty c
  | .insert container ty, _ => parseInsertSequence schema parse container ty c
  | _, _ => fail .typeMismatch

end Values

def parseValue (schema : JsonSchema S) (levels : Nat) (ty : JsonTy S) (dest : JsonValue)
    (lex : JsonLex) (c : JsonCursor) : ParsedValue :=
  match lex.type with
  | .null => if isWrapper ty then .ok (.empty, c) else fail .invalidNull
  | .true => storeScalar schema (storeBoolean true) ty dest c
  | .false => storeScalar schema (storeBoolean false) ty dest c
  | .number => storeScalar schema (storeNumber lex.view) ty dest c
  | .string => do
    let s ← stringText lex
    storeScalar schema (storeString s) ty dest c
  | .beginObject =>
    match levels with
    | 0 => fail .maxDepthExceeded
    -- a wrapper that cannot be filled ends the parse without a diagnostic
    | levels + 1 =>
      withValue schema (.fail .none)
        (fun ty dest => parseObject schema (parseValue schema levels) ty dest c) ty dest
  | .beginArray =>
    match levels with
    | 0 => fail .maxDepthExceeded
    | levels + 1 =>
      withValue schema (.fail .none)
        (fun ty dest => parseArray schema (parseValue schema levels) ty dest c) ty dest
  | .end => fail .unexpectedEnd
  | .invalid => fail .invalidToken
  | _ => fail .expectedValue

/-- `JsonParser::parse` of a source into a destination. -/
def parse (schema : JsonSchema S) (maxDepth : Nat) (source : Bytes) (ty : JsonTy S)
    (dest : JsonValue) : Except Stop JsonValue := do
  let (lex, c) ← nextLex source
  let (v, c) ← parseValue schema maxDepth ty dest lex c
  let (lex, _) ← nextLex c
  if lex.type = .invalid then .error (.fail .invalidToken)
  else if lex.type ≠ .end then .error (.fail .unexpectedToken)
  else .ok v

end JobJson
