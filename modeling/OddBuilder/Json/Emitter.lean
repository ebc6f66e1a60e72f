import OddBuilder.Json.Types

/-!
# Emitter

`JsonEmitter` over a sink that keeps what is appended. Each function gives the
bool that the source returns and the sink afterwards. The source chooses the
branch by the static type, so the type goes along with the value; a value that
is none of its type has no branch.
-/

namespace JobJson

/-- What has been appended so far. -/
abbrev JsonOutputSink : Type := Bytes

def append (sink : JsonOutputSink) (value : Bytes) : JsonOutputSink := sink ++ value

def hexDigits : Bytes := [48, 49, 50, 51, 52, 53, 54, 55, 56, 57, 65, 66, 67, 68, 69, 70]

def emitControlCharacter (character : UInt8) (sink : JsonOutputSink) : JsonOutputSink :=
  append sink [escapeMark, 117, zero, zero,
    hexDigits.getD (character.toNat / 16 % 16) 0, hexDigits.getD (character.toNat % 16) 0]

def emitCharacter (sink : JsonOutputSink) (character : UInt8) : JsonOutputSink :=
  if character = 34 then append sink [escapeMark, 34]
  else if character = 92 then append sink [escapeMark, 92]
  else if character = 8 then append sink [escapeMark, 98]
  else if character = 12 then append sink [escapeMark, 102]
  else if character = 10 then append sink [escapeMark, 110]
  else if character = 13 then append sink [escapeMark, 114]
  else if character = 9 then append sink [escapeMark, 116]
  else if character < 32 then emitControlCharacter character sink
  else append sink [character]

def emitString (value : Bytes) (sink : JsonOutputSink) : Bool × JsonOutputSink :=
  let sink := append sink [quotationMark]
  let sink := value.foldl emitCharacter sink
  (true, append sink [quotationMark])

/-- `std::to_chars` into a buffer of 64 characters, then the sink. -/
def emitNumber (value : Int) (sink : JsonOutputSink) : Bool × JsonOutputSink :=
  let text := toChars value
  if 64 < text.length then (false, sink) else (true, append sink text)

/-- What follows an `if (!...) return false`. -/
def andThen : Bool × JsonOutputSink → (JsonOutputSink → Bool × JsonOutputSink) →
    Bool × JsonOutputSink
  | (false, sink), _ => (false, sink)
  | (true, sink), next => next sink

/-- The comma in front of all but the first item. -/
def separate (first : Bool) (sink : JsonOutputSink) : JsonOutputSink :=
  if first then sink else append sink [valueSeparator]

/-- The frame of `emitSequence`, `emitMap` and `emitObject` around their loops. -/
def enclose (opening closing : UInt8) (loop : JsonOutputSink → Bool × JsonOutputSink)
    (sink : JsonOutputSink) : Bool × JsonOutputSink :=
  andThen (loop (append sink [opening])) fun sink => (true, append sink [closing])

variable {S : Type}

mutual

def emitValue (schema : JsonSchema S) :
    JsonTy S → JsonValue → JsonOutputSink → Bool × JsonOutputSink
  | .wrapper _ _, .empty, sink => (true, append sink literalNull)
  | .wrapper _ ty, .present v, sink => emitValue schema ty v sink
  | .bool, .bool b, sink => (true, append sink (boolText b))
  | .string, .string s, sink => emitString s sink
  | .enum _, .integer n, sink => emitNumber n sink
  | .integer _, .integer n, sink => emitNumber n sink
  | .map _ key mapped, .items .map es, sink =>
    enclose beginArray endArray (emitMap schema key mapped true es) sink
  | .pushBack ty, .items .sequence vs, sink =>
    enclose beginArray endArray (emitSequence schema ty true vs) sink
  | .insert _ ty, .items .set vs, sink =>
    enclose beginArray endArray (emitSequence schema ty true vs) sink
  | .fixed _ ty, .items .sequence vs, sink =>
    enclose beginArray endArray (emitSequence schema ty true vs) sink
  | .struct s, .items .object vs, sink =>
    enclose beginObject endObject (emitObject schema true (schema.members s) vs) sink
  | _, _, sink => (false, sink)

/-- The loop over the elements. -/
def emitSequence (schema : JsonSchema S) (ty : JsonTy S) :
    Bool → List JsonValue → JsonOutputSink → Bool × JsonOutputSink
  | _, [], sink => (true, sink)
  | first, v :: vs, sink =>
    andThen (emitValue schema ty v (separate first sink)) fun sink =>
      emitSequence schema ty false vs sink

/-- The loop over the entries. -/
def emitMap (schema : JsonSchema S) (key mapped : JsonTy S) :
    Bool → List JsonValue → JsonOutputSink → Bool × JsonOutputSink
  | _, [], sink => (true, sink)
  | first, .items .entry [k, m] :: es, sink =>
    andThen (emitValue schema key k (append (separate first sink) [beginArray])) fun sink =>
      andThen (emitValue schema mapped m (append sink [valueSeparator])) fun sink =>
        emitMap schema key mapped false es (append sink [endArray])
  | _, _ :: _, sink => (false, sink)

/-- The loop over the serialised members. -/
def emitObject (schema : JsonSchema S) :
    Bool → List (JsonMember S) → List JsonValue → JsonOutputSink → Bool × JsonOutputSink
  | first, m :: ms, v :: vs, sink =>
    andThen (emitString m.name (separate first sink)) fun sink =>
      andThen (emitValue schema m.type v (append sink [nameSeparator])) fun sink =>
        emitObject schema false ms vs sink
  | _, _, _, sink => (true, sink)

end

/-- `JsonEmitter::emit`. -/
def emit (schema : JsonSchema S) (ty : JsonTy S) (v : JsonValue) (sink : JsonOutputSink) :
    Bool × JsonOutputSink :=
  emitValue schema ty v sink

end JobJson

/-!
## What is emitted

Strings are written as quoted texts that stand for them. The three loops of the
emitter are one, `emitLoop`, over elements, entries and members; what it writes
are the elements of an array or the members of an object.
-/

namespace JobJson

variable {ts : List Bytes}

/-- How the emitter writes a byte of a string. -/
def escapeOf (c : UInt8) : JsonChar :=
  if c = 34 then .short 34
  else if c = 92 then .short 92
  else if c = 8 then .short 98
  else if c = 12 then .short 102
  else if c = 10 then .short 110
  else if c = 13 then .short 114
  else if c = 9 then .short 116
  else if c < 32 then
    .unicode zero zero (hexDigits.getD (c.toNat / 16 % 16) 0) (hexDigits.getD (c.toNat % 16) 0)
  else .raw c

theorem emitCharacter_eq (sink : Bytes) (c : UInt8) :
    emitCharacter sink c = sink ++ (escapeOf c).text := by
  unfold emitCharacter escapeOf
  split_ifs <;> rfl

/-- The control characters that are written by their number. -/
theorem control_escape : ∀ n < 32,
    isHexDigit (hexDigits.getD (n / 16 % 16) 0) = true ∧
    isHexDigit (hexDigits.getD (n % 16) 0) = true ∧
    hexQuad zero zero (hexDigits.getD (n / 16 % 16) 0) (hexDigits.getD (n % 16) 0) = n := by
  decide

theorem escapeOf_valid (c : UInt8) : (escapeOf c).Valid := by
  unfold escapeOf
  split_ifs with h₁ h₂ h₃ h₄ h₅ h₆ h₇ h₈
  all_goals try exact Option.isSome_some
  · obtain ⟨hhigh, hlow, _⟩ := control_escape c.toNat (UInt8.lt_iff_toNat_lt.mp h₈)
    exact ⟨by decide, by decide, hhigh, hlow⟩
  · exact ⟨by simpa using h₈, h₁, h₂⟩

theorem decodedText_escapeOf (c : UInt8) (cs : List JsonChar) :
    decodedText (escapeOf c :: cs) = (decodedText cs).map (c :: ·) := by
  unfold escapeOf
  split_ifs with h₁ h₂ h₃ h₄ h₅ h₆ h₇ h₈
  all_goals try (subst_vars; rfl)
  obtain ⟨_, hquad⟩ := control_escape c.toNat (UInt8.lt_iff_toNat_lt.mp h₈)
  have hsmall : c.toNat < 32 := UInt8.lt_iff_toNat_lt.mp h₈
  have hhigh : isHighSurrogate c.toNat = false := by
    simp [isHighSurrogate]
    omega
  have hlow : isLowSurrogate c.toNat = false := by
    simp [isLowSurrogate]
    omega
  have hutf8 : utf8 c.toNat = [c] := by
    simp [utf8, show c.toNat ≤ 127 by omega]
  conv_lhs => unfold decodedText
  simp only [hquad, hhigh, hlow, hutf8]
  rfl

/-- A string is written as a quoted text that stands for it. -/
theorem emitString_spec (s : Bytes) :
    ∃ cs, (∀ sink, emitString s sink = (true, sink ++ quoted cs)) ∧ (∀ c ∈ cs, c.Valid) ∧
      decodedText cs = some s := by
  refine ⟨s.map escapeOf, ?_, ?_, ?_⟩
  · intro sink
    have loop : ∀ (s sink : Bytes),
        s.foldl emitCharacter sink = sink ++ charsText (s.map escapeOf) := by
      intro s
      induction s with
      | nil => simp [charsText]
      | cons c s ih =>
        intro sink
        simp [ih, emitCharacter_eq, charsText]
    simp [emitString, append, loop, quoted]
  · intro c hc
    obtain ⟨b, _, rfl⟩ := List.mem_map.mp hc
    exact escapeOf_valid b
  · induction s with
    | nil => rfl
    | cons c s ih => simp [decodedText_escapeOf, ih]

@[simp]
theorem andThen_true (sink : JsonOutputSink) (next : JsonOutputSink → Bool × JsonOutputSink) :
    andThen (true, sink) next = next sink := rfl

/-- The loops of the emitter, over what each item appends. -/
def emitLoop {α : Type} (item : α → JsonOutputSink → Bool × JsonOutputSink) :
    Bool → List α → JsonOutputSink → Bool × JsonOutputSink
  | _, [], sink => (true, sink)
  | first, x :: xs, sink =>
    andThen (item x (separate first sink)) fun sink => emitLoop item false xs sink

/-- Texts with commas between them. -/
def joined : List Bytes → Bytes
  | [] => []
  | t :: ts => t ++ ts.flatMap (valueSeparator :: ·)

theorem joined_cons_cons (t u : Bytes) (ts : List Bytes) :
    joined (t :: u :: ts) = t ++ valueSeparator :: joined (u :: ts) := by
  simp [joined]

/-- An item appends its text. -/
def Appends {α : Type} (item : α → JsonOutputSink → Bool × JsonOutputSink) (x : α)
    (text : Bytes) : Prop :=
  ∀ sink, item x sink = (true, sink ++ text)

theorem emitLoop_spec {α : Type} {item : α → JsonOutputSink → Bool × JsonOutputSink} {xs : List α}
    (h : List.Forall₂ (Appends item) xs ts) (sink : JsonOutputSink) :
    emitLoop item true xs sink = (true, sink ++ joined ts) := by
  have later : ∀ {xs ts}, List.Forall₂ (Appends item) xs ts → ∀ sink,
      emitLoop item false xs sink = (true, sink ++ ts.flatMap (valueSeparator :: ·)) := by
    intro xs ts h
    induction h with
    | nil => simp [emitLoop]
    | cons hx _ ih =>
      intro sink
      simp [emitLoop, separate, append, hx _, ih]
  cases h with
  | nil => simp [emitLoop, joined]
  | cons hx hxs => simp [emitLoop, separate, hx _, later hxs, joined]

theorem enclose_spec {opening closing : UInt8} {loop : JsonOutputSink → Bool × JsonOutputSink}
    {text : Bytes} (h : ∀ sink, loop sink = (true, sink ++ text)) (sink : JsonOutputSink) :
    enclose opening closing loop sink = (true, sink ++ (opening :: (text ++ [closing]))) := by
  simp [enclose, append, h]

theorem isWs_nil : IsWs [] := by
  simp [IsWs]

/-- Texts of values, with commas between them, are the elements of an array. -/
theorem elements_joined {js : List Json}
    (h : List.Forall₂ (fun j t => ∀ r, Value j (t ++ r) r) js ts) (r : Bytes) :
    js ≠ [] → Elements js (joined ts ++ endArray :: r) r := by
  induction h with
  | nil => simp
  | @cons j t js ts hj hjs ih =>
    intro _
    cases hjs with
    | nil =>
      have hlast := hj (endArray :: r)
      simpa [joined] using Elements.last isWs_nil hlast isWs_nil
    | @cons j' t' js ts hj' hjs =>
      have hmore := hj (valueSeparator :: (joined (t' :: ts) ++ endArray :: r))
      simpa [joined_cons_cons] using Elements.more isWs_nil hmore isWs_nil (ih (by simp))

theorem value_array {js : List Json} (h : List.Forall₂ (fun j t => ∀ r, Value j (t ++ r) r) js ts)
    (r : Bytes) : Value (.array js) (beginArray :: (joined ts ++ [endArray]) ++ r) r := by
  by_cases hjs : js = []
  · subst hjs
    cases h
    exact .emptyArray isWs_nil
  · simpa using Value.array (elements_joined h r hjs)

/-- The text of a member: its name, a colon and its value. -/
def MemberText (p : List JsonChar × Json) (t : Bytes) : Prop :=
  (∀ c ∈ p.1, c.Valid) ∧ ∃ b, t = quoted p.1 ++ nameSeparator :: b ∧ ∀ r, Value p.2 (b ++ r) r

theorem members_joined {ms : List (List JsonChar × Json)} (h : List.Forall₂ MemberText ms ts)
    (r : Bytes) : ms ≠ [] → Members ms (joined ts ++ endObject :: r) r := by
  induction h with
  | nil => simp
  | @cons p t ms ts hp hms ih =>
    intro _
    obtain ⟨hk, b, rfl, hj⟩ := hp
    cases hms with
    | nil =>
      have hlast := hj (endObject :: r)
      simpa [joined] using Members.last isWs_nil hk isWs_nil isWs_nil hlast isWs_nil
    | @cons p' t' ms ts hp' hms =>
      have hmore := hj (valueSeparator :: (joined (t' :: ts) ++ endObject :: r))
      simpa [joined_cons_cons] using
        Members.more isWs_nil hk isWs_nil isWs_nil hmore isWs_nil (ih (by simp))

theorem value_object {ms : List (List JsonChar × Json)} (h : List.Forall₂ MemberText ms ts)
    (r : Bytes) : Value (.object ms) (beginObject :: (joined ts ++ [endObject]) ++ r) r := by
  by_cases hms : ms = []
  · subst hms
    cases h
    exact .emptyObject isWs_nil
  · simpa using Value.object (members_joined h r hms)

variable {S : Type} (schema : JsonSchema S)

theorem emitSequence_eq (ty : JsonTy S) (first : Bool) (vs : List JsonValue)
    (sink : JsonOutputSink) :
    emitSequence schema ty first vs sink = emitLoop (emitValue schema ty) first vs sink := by
  induction vs generalizing first sink with
  | nil => rfl
  | cons v vs ih => simp [emitSequence, emitLoop, ih]

def emitEntry (key mapped : JsonTy S) (e : JsonValue) (sink : JsonOutputSink) :
    Bool × JsonOutputSink :=
  match e with
  | .items .entry [k, m] =>
    andThen (emitValue schema key k (append sink [beginArray])) fun sink =>
      andThen (emitValue schema mapped m (append sink [valueSeparator])) fun sink =>
        (true, append sink [endArray])
  | _ => (false, sink)

def emitMember (p : JsonMember S × JsonValue) (sink : JsonOutputSink) : Bool × JsonOutputSink :=
  andThen (emitString p.1.name sink) fun sink =>
    emitValue schema p.1.type p.2 (append sink [nameSeparator])

theorem andThen_assoc (x : Bool × JsonOutputSink)
    (f g : JsonOutputSink → Bool × JsonOutputSink) :
    andThen (andThen x f) g = andThen x fun sink => andThen (f sink) g := by
  obtain ⟨success⟩ := x
  cases success <;> rfl

theorem emitMap_eq (key mapped : JsonTy S) {es : List JsonValue}
    (hentry : ∀ e ∈ es, ∃ k m, e = JsonValue.entry k m) (first : Bool) (sink : JsonOutputSink) :
    emitMap schema key mapped first es sink =
      emitLoop (emitEntry schema key mapped) first es sink := by
  induction es generalizing first sink with
  | nil => rfl
  | cons e es ih =>
    obtain ⟨⟨k, m, rfl⟩, hrest⟩ := List.forall_mem_cons.mp hentry
    simp [JsonValue.entry, emitMap, emitLoop, emitEntry, andThen_assoc, ih hrest]

theorem emitObject_eq (ms : List (JsonMember S)) (vs : List JsonValue) (first : Bool)
    (sink : JsonOutputSink) :
    emitObject schema first ms vs sink =
      emitLoop (emitMember schema) first (ms.zip vs) sink := by
  induction ms generalizing vs first sink with
  | nil => simp [emitObject, emitLoop]
  | cons m ms ih =>
    cases vs with
    | nil => simp [emitObject, emitLoop]
    | cons v vs => simp [emitObject, emitLoop, emitMember, andThen_assoc, ih]

end JobJson
