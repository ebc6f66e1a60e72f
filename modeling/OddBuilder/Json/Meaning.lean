import OddBuilder.Json.Parser

/-!
# What a syntax tree does to a destination

Parsing taken apart: which bytes are read is a matter of the grammar, what
becomes of the destination depends on the syntax tree alone. `assign` is the
second half. The first half of this module collects what the grammar says about
where a value ends.
-/

namespace JobJson

open JsonLexer List

variable {c r d : Bytes} {b : UInt8} {lex : JsonLex}

/-- Values whose text does not show by itself where it ends. -/
def Json.isOpenEnded : Json → Bool
  | null => true
  | bool _ => true
  | number _ => true
  | _ => false

/-- A value with the white space in front of it, ended as the lexer wants it. -/
structure Reads (j : Json) (c r : Bytes) : Prop where
  value : ∃ w b, c = w ++ b ∧ IsWs w ∧ Value j b r
  ends : j.isOpenEnded = true → Terminated r

/-- The byte of a punctuation mark. -/
def markOf : JsonLexType → Option UInt8
  | .beginObject => some beginObject
  | .endObject => some endObject
  | .beginArray => some beginArray
  | .endArray => some endArray
  | .nameSeparator => some nameSeparator
  | .valueSeparator => some valueSeparator
  | _ => none

theorem punctuation_markOf {type : JsonLexType} (h : punctuation b = some type) :
    markOf type = some b := by
  simp only [punctuation] at h
  split_ifs at h with h₁ h₂ h₃ h₄ h₅ h₆
  all_goals
    obtain rfl := Option.some.inj h
    simp [markOf, *]

theorem markOf_punctuation {type : JsonLexType} (h : markOf type = some b) :
    punctuation b = some type := by
  cases type <;> simp only [markOf] at h <;> cases h <;> decide

/-- A punctuation token is its byte, behind white space. -/
theorem next_mark (h : JsonLexer.next c = some (lex, r)) (hmark : markOf lex.type = some b) :
    ∃ w, IsWs w ∧ c = w ++ b :: r := by
  have hvalid : lex.type ≠ .invalid := by
    intro hinvalid
    rw [hinvalid] at hmark
    cases hmark
  cases next_sound h hvalid with
  | «end» hw => cases hmark
  | mark hw hb =>
    rw [punctuation_markOf hb] at hmark
    obtain rfl := Option.some.inj hmark
    exact ⟨_, hw, rfl⟩
  | @bool _ _ b hw hr => cases b <;> cases hmark
  | null hw hr => cases hmark
  | number hw ht hr => cases hmark
  | string hw hcs => cases hmark

theorem next_of_mark (type : JsonLexType) {w : Bytes} (hw : IsWs w) (hmark : markOf type = some b) :
    JsonLexer.next (w ++ b :: r) = some (⟨type, [b], false⟩, r) :=
  next_complete (.mark hw (markOf_punctuation hmark))

/-- A production takes at least one byte. -/
theorem value_length {j : Json} {b : Bytes} (h : Value j b r) : r.length < b.length := by
  refine @Value.rec (fun _ b r _ => r.length < b.length) (fun _ b r _ => r.length < b.length)
    (fun _ b r _ => r.length < b.length) ?_ ?_ ?_ ?_ ?_ ?_ ?_ ?_ ?_ ?_ ?_ ?_ j b r h
  · intro r
    simp only [literalNull, length_append, length_cons]
    omega
  · intro b r
    cases b <;> simp only [boolText, literalTrue, literalFalse, length_append,
      length_cons, if_true, Bool.false_eq_true, if_false] <;> omega
  · intro t r ht
    obtain ⟨b, t', rfl, _⟩ := isNumber_head ht
    simp only [length_append, length_cons]
    omega
  · intro cs r hcs
    simp only [quoted, length_append, length_cons]
    omega
  · intro w r hw
    simp only [length_append, length_cons]
    omega
  · intro js b r _ ih
    simp only [length_cons]
    omega
  · intro w r hw
    simp only [length_append, length_cons]
    omega
  · intro ms b r _ ih
    simp only [length_cons]
    omega
  · intro j w b w' r _ _ _ ih
    simp only [length_append, length_cons] at ih ⊢
    omega
  · intro j js w b w' d r _ _ _ _ ih ih'
    simp only [length_append, length_cons] at ih ⊢
    omega
  · intro k j w u v b w' r _ _ _ _ _ _ ih
    simp only [length_append, length_cons] at ih ⊢
    omega
  · intro k j ms w u v b w' d r _ _ _ _ _ _ _ ih ih'
    simp only [length_append, length_cons] at ih ⊢
    omega

theorem next_det {d' : Bytes} {lex' : JsonLex} (h : JsonLexer.next c = some (lex, d))
    (h' : JsonLexer.next c = some (lex', d')) : lex = lex' ∧ d = d' := by
  rw [h] at h'
  exact Prod.mk.inj (Option.some.inj h')

/-- The tokens at which a value can begin. -/
def beginsValue : JsonLexType → Bool
  | .null => true
  | .true => true
  | .false => true
  | .number => true
  | .string => true
  | .beginArray => true
  | .beginObject => true
  | _ => false

theorem beginsValue_ne {t u : JsonLexType} (h : beginsValue t = true)
    (hu : beginsValue u = false) : t ≠ u := by
  rintro rfl
  rw [h] at hu
  cases hu

/-- The token at which a value begins, and that the value goes at least as far. -/
theorem Reads.token {j : Json} (h : Reads j c r) (hnext : JsonLexer.next c = some (lex, d)) :
    r.length ≤ d.length ∧ beginsValue lex.type = true := by
  obtain ⟨⟨w, b, rfl, hw, hvalue⟩, hends⟩ := h
  cases hvalue with
  | null =>
    obtain ⟨rfl, rfl⟩ := next_det hnext (next_complete (.null hw (hends rfl)))
    exact ⟨le_refl _, rfl⟩
  | @bool b =>
    obtain ⟨rfl, rfl⟩ := next_det hnext (next_complete (.bool hw (hends rfl)))
    exact ⟨le_refl _, by cases b <;> rfl⟩
  | number ht =>
    obtain ⟨rfl, rfl⟩ := next_det hnext (next_complete (.number hw ht (hends rfl)))
    exact ⟨le_refl _, rfl⟩
  | string hcs =>
    obtain ⟨rfl, rfl⟩ := next_det hnext (next_complete (.string hw hcs))
    exact ⟨le_refl _, rfl⟩
  | emptyArray hw' =>
    obtain ⟨rfl, rfl⟩ := next_det hnext (next_of_mark .beginArray hw rfl)
    exact ⟨by simp only [length_append, length_cons]; omega, rfl⟩
  | array hjs =>
    have hlen := value_length (Value.array hjs)
    obtain ⟨rfl, rfl⟩ := next_det hnext (next_of_mark .beginArray hw rfl)
    exact ⟨by simpa using Nat.le_of_lt_succ hlen, rfl⟩
  | emptyObject hw' =>
    obtain ⟨rfl, rfl⟩ := next_det hnext (next_of_mark .beginObject hw rfl)
    exact ⟨by simp only [length_append, length_cons]; omega, rfl⟩
  | object hms =>
    have hlen := value_length (Value.object hms)
    obtain ⟨rfl, rfl⟩ := next_det hnext (next_of_mark .beginObject hw rfl)
    exact ⟨by simpa using Nat.le_of_lt_succ hlen, rfl⟩

theorem next_length_lt (hnext : JsonLexer.next c = some (lex, d))
    (hbegins : beginsValue lex.type = true) :
    d.length < c.length :=
  (next_sound hnext (beginsValue_ne hbegins rfl)).length_lt (beginsValue_ne hbegins rfl)

variable {S : Type}

/-- A store inside all wrappers. -/
def withInner (schema : JsonSchema S) (store : JsonTy S → JsonValue → Option JsonValue) :
    JsonTy S → JsonValue → Option JsonValue
  | .wrapper w ty, dest =>
    (materialize schema w ty dest).bind fun inner =>
      (withInner schema store ty inner).map .present
  | ty, dest => store ty dest

def assignAll (element : Json → Option JsonValue)
    (add : List JsonValue → JsonValue → List JsonValue) :
    List JsonValue → List Json → Option (List JsonValue)
  | vs, [] => some vs
  | vs, j :: js => (element j).bind fun v => assignAll element add (add vs v) js

def assignFixed (element : JsonValue → Json → Option JsonValue) :
    List JsonValue → List Json → Option (List JsonValue)
  | [], [] => some []
  | d :: ds, j :: js =>
    (element d j).bind fun v => (assignFixed element ds js).map (v :: ·)
  | _, _ => none

def assignEntry (key mapped : Json → Option JsonValue) : Json → Option JsonValue
  | .array [a, b] => (key a).bind fun k => (mapped b).map fun m => .entry k m
  | _ => none

def assignMember (member : JsonTy S → JsonValue → Json → Option JsonValue) (key : Bytes) (j : Json) :
    List (JsonMember S) → List JsonValue → Option (List JsonValue)
  | m :: ms, d :: ds =>
    if key = m.name then (member m.type d j).map (· :: ds)
    else (assignMember member key j ms ds).map (d :: ·)
  | _, _ => none

def assignMembers (member : JsonTy S → JsonValue → Json → Option JsonValue)
    (ms : List (JsonMember S)) :
    List JsonValue → List (List JsonChar × Json) → Option (List JsonValue)
  | ds, [] => some ds
  | ds, (k, j) :: rest =>
    (decodedText k).bind fun key =>
      (assignMember member key j ms ds).bind fun ds => assignMembers member ms ds rest

section Values

variable (schema : JsonSchema S) (element : JsonTy S → JsonValue → Json → Option JsonValue)

def assignObject (js : List (List JsonChar × Json)) (ty : JsonTy S) (dest : JsonValue) :
    Option JsonValue :=
  match ty, dest with
  | .struct s, .items .object ds =>
    (assignMembers element (schema.members s) ds js).map (.items .object)
  | _, _ => none

def assignArray (js : List Json) (ty : JsonTy S) (dest : JsonValue) : Option JsonValue :=
  match ty, dest with
  | .map container key mapped, _ =>
    match schema.defaultValue key, schema.defaultValue mapped with
    | some k, some m =>
      (assignAll (assignEntry (element key k) (element mapped m)) container.insert [] js).map
        (.items .map)
    | _, _ => none
  | .fixed _ ty, .items .sequence ds => (assignFixed (element ty) ds js).map (.items .sequence)
  | .pushBack ty, _ =>
    (schema.defaultValue ty).bind fun initial =>
      (assignAll (element ty initial) (fun vs v => vs ++ [v]) [] js).map (.items .sequence)
  | .insert container ty, _ =>
    (schema.defaultValue ty).bind fun initial =>
      (assignAll (element ty initial) container.insert [] js).map (.items .set)
  | _, _ => none

end Values

/-- What a destination is left with when the tree is parsed into it, with so many levels of nesting
allowed. -/
def assign (schema : JsonSchema S) (levels : Nat) (ty : JsonTy S) (dest : JsonValue) (j : Json) :
    Option JsonValue :=
  match j with
  | .null => if isWrapper ty then some .empty else none
  | .bool b => withInner schema (fun ty _ => storeBoolean b ty) ty dest
  | .number t => withInner schema (fun ty _ => storeNumber t ty) ty dest
  | .string cs =>
    (decodedText cs).bind fun s => withInner schema (fun ty _ => storeString s ty) ty dest
  | .array js =>
    match levels with
    | 0 => none
    | levels + 1 => withInner schema (assignArray schema (assign schema levels) js) ty dest
  | .object ms =>
    match levels with
    | 0 => none
    | levels + 1 => withInner schema (assignObject schema (assign schema levels) ms) ty dest

section Equations

variable (schema : JsonSchema S) (levels : Nat) (ty : JsonTy S) (dest : JsonValue)

theorem assign_eq (j : Json) : assign schema levels ty dest j =
    match j with
    | .null => if isWrapper ty then some .empty else none
    | .bool b => withInner schema (fun ty _ => storeBoolean b ty) ty dest
    | .number t => withInner schema (fun ty _ => storeNumber t ty) ty dest
    | .string cs =>
      (decodedText cs).bind fun s => withInner schema (fun ty _ => storeString s ty) ty dest
    | .array js =>
      match levels with
      | 0 => none
      | levels + 1 => withInner schema (assignArray schema (assign schema levels) js) ty dest
    | .object ms =>
      match levels with
      | 0 => none
      | levels + 1 => withInner schema (assignObject schema (assign schema levels) ms) ty dest := by
  unfold assign
  rfl

theorem assign_null :
    assign schema levels ty dest .null = if isWrapper ty then some .empty else none :=
  assign_eq schema levels ty dest .null

theorem assign_bool (b : Bool) :
    assign schema levels ty dest (.bool b) =
      withInner schema (fun ty _ => storeBoolean b ty) ty dest :=
  assign_eq schema levels ty dest (.bool b)

theorem assign_number (t : Bytes) :
    assign schema levels ty dest (.number t) =
      withInner schema (fun ty _ => storeNumber t ty) ty dest :=
  assign_eq schema levels ty dest (.number t)

theorem assign_string (cs : List JsonChar) :
    assign schema levels ty dest (.string cs) =
      (decodedText cs).bind fun s => withInner schema (fun ty _ => storeString s ty) ty dest :=
  assign_eq schema levels ty dest (.string cs)

theorem assign_array_zero (js : List Json) : assign schema 0 ty dest (.array js) = none :=
  assign_eq schema 0 ty dest (.array js)

theorem assign_array_succ (js : List Json) :
    assign schema (levels + 1) ty dest (.array js) =
      withInner schema (assignArray schema (assign schema levels) js) ty dest :=
  assign_eq schema (levels + 1) ty dest (.array js)

theorem assign_object_zero (ms : List (List JsonChar × Json)) :
    assign schema 0 ty dest (.object ms) = none :=
  assign_eq schema 0 ty dest (.object ms)

theorem assign_object_succ (ms : List (List JsonChar × Json)) :
    assign schema (levels + 1) ty dest (.object ms) =
      withInner schema (assignObject schema (assign schema levels) ms) ty dest :=
  assign_eq schema (levels + 1) ty dest (.object ms)

end Equations

/-- Both ways of looking into wrappers agree, for stores that depend on what has been read. -/
theorem withValue_iff {X : Type} {schema : JsonSchema S} {refused : Stop}
    {function : JsonTy S → JsonValue → ParsedValue}
    {store : X → JsonTy S → JsonValue → Option JsonValue} {P : X → JsonCursor → Prop}
    (h : ∀ ty dest v c, function ty dest = .ok (v, c) ↔ ∃ x, P x c ∧ store x ty dest = some v)
    (ty : JsonTy S) :
    ∀ dest v c, withValue schema refused function ty dest = .ok (v, c) ↔
      ∃ x, P x c ∧ withInner schema (store x) ty dest = some v := by
  induction ty with
  | wrapper w ty ih =>
    intro dest v c
    simp only [withValue, withInner]
    cases hinner : materialize schema w ty dest with
    | none => simp
    | some inner =>
      simp only [bind_ok_iff, Option.bind_some, Option.map_eq_some_iff]
      constructor
      · rintro ⟨⟨v', c'⟩, hparse, hok⟩
        obtain ⟨rfl, rfl⟩ := Prod.mk.inj (Except.ok.inj hok)
        obtain ⟨x, hP, hstore⟩ := (ih inner v' c').mp hparse
        exact ⟨x, hP, v', hstore, rfl⟩
      · rintro ⟨x, hP, v', hstore, rfl⟩
        exact ⟨(v', c), (ih inner v' c).mpr ⟨x, hP, hstore⟩, rfl⟩
  | bool => exact h _
  | integer k => exact h _
  | enum k => exact h _
  | string => exact h _
  | pushBack ty _ => exact h _
  | insert c ty _ => exact h _
  | fixed size ty _ => exact h _
  | map c key mapped _ _ => exact h _
  | struct s => exact h _

theorem storeScalar_iff (schema : JsonSchema S) (store : JsonTy S → Option JsonValue)
    (ty : JsonTy S) (dest v : JsonValue) (c r : JsonCursor) :
    storeScalar schema store ty dest c = .ok (v, r) ↔
      r = c ∧ withInner schema (fun ty _ => store ty) ty dest = some v := by
  have scalar : storeScalar schema store ty dest c = .ok (v, r) ↔
      ∃ _ : Unit, r = c ∧ withInner schema (fun ty _ => store ty) ty dest = some v := by
    refine @withValue_iff S Unit schema (.fail .typeMismatch) _ (fun _ ty _ => store ty)
      (fun _ r => r = c) ?_ ty dest v r
    intro ty _ v r
    cases store ty with
    | none => simp [fail]
    | some w => simp [eq_comm, and_comm]
  rw [scalar]
  exact ⟨fun ⟨_, h⟩ => h, fun h => ⟨(), h⟩⟩

end JobJson
