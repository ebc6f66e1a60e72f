import Mathlib.Data.List.TakeWhile
import OddBuilder.Serializer.RuntimeObject

/-!
# Decoding into an object

`decodeJson` clears the destination before it stores a field and never fails after that.
`decodeBinary` stores into what the destination holds and can fail between two fields.
-/

namespace JobSerializer

open RuntimeObject

variable {entries : List (MsgPack × MsgPack)} {fields : List Field} {name : Text}

/-- A field that is not found, or whose value is not converted, is left out. -/
def store (value : Text → Option FieldValue) (object : RuntimeObject) (f : Field) :
    RuntimeObject :=
  match value f.name with
  | some value => object.setField f.name value
  | none => object

/-- The order of the fields does not matter, nor how often a name comes. -/
theorem foldl_store (value : Text → Option FieldValue) (fields : List Field)
    (object : RuntimeObject) (name : Text) : (fields.foldl (store value) object).fields name =
      if name ≠ [] ∧ name ∈ fields.map Field.name then (value name).or (object.fields name)
      else object.fields name := by
  induction fields generalizing object with
  | nil => simp
  | cons f fields ih =>
    have hfirst : (store value object f).fields name =
        if f.name ≠ [] ∧ f.name = name then (value name).or (object.fields name)
        else object.fields name := by
      rw [store]
      by_cases hname : f.name = name
      · cases hvalue : value f.name <;> simp [setField_fields, ← hname, hvalue]
      · cases hvalue : value f.name <;> simp [setField_fields, hname]
    rw [List.foldl_cons, ih, hfirst]
    by_cases hname : f.name = name
    · subst hname
      by_cases hempty : f.name = [] <;> cases value f.name <;> simp [hempty]
    · simp [hname, Ne.symm hname]

/-- The value of a field in an object, also if the field is required and missing. -/
def jsonValue (entries : List (Text × Json)) (name : Text) : Option FieldValue :=
  (KeyedMap.find entries name).bind jsonToFieldValue

/-- `parse` is the library's, `none` where it throws. -/
def decodeJson (parse : List UInt8 → Option Json) (schema : Schema) (object : RuntimeObject)
    (buffer : List UInt8) : Bool × RuntimeObject :=
  if buffer.isEmpty then (false, object)
  else match parse buffer with
    | some (.object entries) => (true, schema.fields.foldl (store (jsonValue entries)) .empty)
    | _ => (false, object)

/-- The search for the key of a field, `none` where a key before it is no text: the conversion
throws. -/
def findValue (name : Text) : List (MsgPack × MsgPack) → Option (Option MsgPack)
  | [] => some none
  | (key, value) :: entries =>
    match key.asText with
    | none => none
    | some text => if text = name then some (some value) else findValue name entries

/-- What the loop of `decodeBinary` makes of a field. -/
inductive Reading where
  | written (value : FieldValue)
  | passed
  | refused
  | terminated

def readField (entries : List (MsgPack × MsgPack)) (f : Field) : Reading :=
  match findValue f.name entries with
  | none => .refused
  | some none => if f.required then .refused else .passed
  | some (some value) =>
    match unpackFieldValue value with
    | .ok value => .written value
    | .error .unsupported => .passed
    | .error .terminate => .terminated

/-- The result is `none` where the program ends. -/
def decodeFields (entries : List (MsgPack × MsgPack)) :
    List Field → RuntimeObject → Option (Bool × RuntimeObject)
  | [], object => some (true, object)
  | f :: fields, object =>
    match readField entries f with
    | .written value => decodeFields entries fields (object.setField f.name value)
    | .passed => decodeFields entries fields object
    | .refused => some (false, object)
    | .terminated => none

/-- `unpack` is the library's, `none` where it throws. -/
def decodeBinary (unpack : List UInt8 → Option MsgPack) (schema : Schema)
    (object : RuntimeObject) (buffer : List UInt8) : Option (Bool × RuntimeObject) :=
  if buffer.isEmpty then some (false, object)
  else match unpack buffer with
    | some (.map entries) => decodeFields entries schema.fields object
    | _ => some (false, object)

/-- The fields at which the loop goes on. -/
def goesOn (entries : List (MsgPack × MsgPack)) (f : Field) : Bool :=
  match readField entries f with
  | .written _ | .passed => true
  | _ => false

def binaryValue (entries : List (MsgPack × MsgPack)) (name : Text) : Option FieldValue :=
  match findValue name entries with
  | some (some value) => (unpackFieldValue value).toOption
  | _ => none

theorem readField_eq (entries : List (MsgPack × MsgPack)) (f : Field) :
    match readField entries f with
    | .written value => binaryValue entries f.name = some value
    | _ => binaryValue entries f.name = none := by
  rw [readField, binaryValue]
  cases findValue f.name entries with
  | none => rfl
  | some found =>
    cases found with
    | none => cases f.required <;> rfl
    | some value =>
      dsimp only
      cases unpackFieldValue value with
      | ok value => rfl
      | error stop => cases stop <;> rfl

/-- The loop stores the fields before the one at which it stops. -/
theorem decodeFields_eq (object : RuntimeObject) : decodeFields entries fields object =
    match fields.dropWhile (goesOn entries) with
    | [] => some (true, fields.foldl (store (binaryValue entries)) object)
    | f :: _ =>
      match readField entries f with
      | .terminated => none
      | _ => some (false,
          (fields.takeWhile (goesOn entries)).foldl (store (binaryValue entries)) object) := by
  induction fields generalizing object with
  | nil => rfl
  | cons f fields ih =>
    have hvalue := readField_eq entries f
    cases hread : readField entries f <;> rw [hread] at hvalue <;>
      simp [decodeFields, goesOn, store, hread, hvalue, ih]

/-- A call that fails leaves the destination, and one that succeeds makes the same of every
destination. -/
def AllOrNothing (decode : RuntimeObject → Option (Bool × RuntimeObject))
    (prior : RuntimeObject) : Prop :=
  ∀ result, (decode prior = some (false, result) → result = prior) ∧
    (decode prior = some (true, result) → decode .empty = some (true, result))

/-- A buffer of an object without a required field. -/
def LacksJson (parse : List UInt8 → Option Json) (schema : Schema) (buffer : List UInt8) : Prop :=
  buffer ≠ [] ∧ ∃ entries, parse buffer = some (.object entries) ∧
    ∃ f ∈ schema.fields, f.required = true ∧ ∀ entry ∈ entries, entry.1 ≠ f.name

def LacksBinary (unpack : List UInt8 → Option MsgPack) (schema : Schema)
    (buffer : List UInt8) : Prop :=
  buffer ≠ [] ∧ ∃ entries, unpack buffer = some (.map entries) ∧
    ∃ f ∈ schema.fields, f.required = true ∧ ∀ entry ∈ entries, entry.1.asText ≠ some f.name

/-- The value that the buffer has for one of the fields. -/
def written (entries : List (MsgPack × MsgPack)) (fields : List Field) (name : Text) :
    Option FieldValue :=
  if name ≠ [] ∧ name ∈ fields.map Field.name then binaryValue entries name else none

/-- A destination that the buffer can be decoded into: where the loop ends it holds only fields
that are written, and where the loop fails it holds already what is written before. -/
def Fits (entries : List (MsgPack × MsgPack)) (fields : List Field) (prior : RuntimeObject) :
    Prop :=
  match fields.dropWhile (goesOn entries) with
  | [] => ∀ name, prior.fields name ≠ none → written entries fields name ≠ none
  | f :: _ => readField entries f = .refused →
      ∀ name value, written entries (fields.takeWhile (goesOn entries)) name = some value →
        prior.fields name = some value

theorem stored_fields (object : RuntimeObject) (name : Text) :
    (fields.foldl (store (binaryValue entries)) object).fields name =
      (written entries fields name).or (object.fields name) := by
  rw [foldl_store, written]
  split <;> simp

/-- The decoder has the promise where the destination fits the buffer. -/
theorem decodeFields_allOrNothing {prior : RuntimeObject} :
    AllOrNothing (decodeFields entries fields) prior ↔ Fits entries fields prior := by
  unfold AllOrNothing Fits
  simp only [decodeFields_eq]
  cases hdrop : fields.dropWhile (goesOn entries) with
  | nil =>
    simp only [Option.some.injEq, Prod.mk.injEq, Bool.true_eq_false, false_and, true_and,
      false_imp_iff, forall_eq']
    simp only [RuntimeObject.ext_iff, funext_iff, stored_fields]
    refine forall_congr' fun name => ?_
    cases written entries fields name <;> simp [empty, eq_comm]
  | cons f rest =>
    have hstop : goesOn entries f = false := by
      simpa [hdrop] using List.head?_dropWhile_not (goesOn entries) fields
    cases hread : readField entries f with
    | written value => simp [goesOn, hread] at hstop
    | passed => simp [goesOn, hread] at hstop
    | terminated => simp [hread]
    | refused =>
      simp only [hread, Option.some.injEq, Prod.mk.injEq, Bool.false_eq_true, false_and,
        true_and, false_imp_iff, and_true, forall_eq', true_imp_iff]
      simp only [RuntimeObject.ext_iff, funext_iff, stored_fields]
      refine forall_congr' fun name => ?_
      cases written entries (fields.takeWhile (goesOn entries)) name <;> simp [eq_comm]

/-- What is promised of two buffers, one of each format, and a destination. -/
structure Promised (parse : List UInt8 → Option Json) (unpack : List UInt8 → Option MsgPack)
    (schema : Schema) (json binary : List UInt8) (prior : RuntimeObject) : Prop where
  json_whole : AllOrNothing (fun object => some (decodeJson parse schema object json)) prior
  binary_whole : AllOrNothing (fun object => decodeBinary unpack schema object binary) prior
  reported_alike : LacksJson parse schema json → LacksBinary unpack schema binary →
    (decodeBinary unpack schema prior binary).map Prod.fst =
      some (decodeJson parse schema prior json).1

variable {parse : List UInt8 → Option Json} {unpack : List UInt8 → Option MsgPack}
variable {schema : Schema} {json binary : List UInt8} {prior : RuntimeObject}

theorem decodeJson_allOrNothing :
    AllOrNothing (fun object => some (decodeJson parse schema object json)) prior := by
  unfold AllOrNothing decodeJson
  split
  · simp
  · cases parse json with
    | none => simp
    | some tree => cases tree <;> simp

theorem decodeBinary_allOrNothing :
    AllOrNothing (fun object => decodeBinary unpack schema object binary) prior ↔
      (binary ≠ [] → ∀ entries, unpack binary = some (.map entries) →
        Fits entries schema.fields prior) := by
  by_cases hempty : binary = []
  · simp [AllOrNothing, decodeBinary, hempty]
  · cases htree : unpack binary with
    | none => simp [AllOrNothing, decodeBinary, hempty, htree]
    | some tree =>
      cases tree with
      | map entries =>
        have heq : (fun object => decodeBinary unpack schema object binary) =
            decodeFields entries schema.fields := by
          funext object
          simp [decodeBinary, hempty, htree]
        simp [heq, hempty, decodeFields_allOrNothing]
      | _ => simp [AllOrNothing, decodeBinary, hempty, htree]

theorem findValue_missing (h : ∀ entry ∈ entries, entry.1.asText ≠ some name) :
    findValue name entries = none ∨ findValue name entries = some none := by
  induction entries with
  | nil => exact Or.inr rfl
  | cons entry entries ih =>
    have hne := h entry List.mem_cons_self
    have htail := ih fun other hother => h other (List.mem_cons_of_mem _ hother)
    cases hkey : entry.1.asText with
    | none => simp [findValue, hkey]
    | some text =>
      rw [hkey, ne_eq, Option.some.injEq] at hne
      simpa [findValue, hkey, hne] using htail

/-- The field that is missing is reported by `decodeBinary` only. -/
theorem reports_differ (hjson : LacksJson parse schema json)
    (hbinary : LacksBinary unpack schema binary) :
    (decodeBinary unpack schema prior binary).map Prod.fst ≠
      some (decodeJson parse schema prior json).1 := by
  obtain ⟨hjson, tree, hparse, -⟩ := hjson
  obtain ⟨hbinary, entries, hunpack, f, hf, hrequired, hmissing⟩ := hbinary
  have hstop : goesOn entries f = false := by
    rcases findValue_missing hmissing with hfind | hfind <;>
      simp [goesOn, readField, hfind, hrequired]
  cases hdrop : schema.fields.dropWhile (goesOn entries) with
  | nil =>
    have hall := List.dropWhile_eq_nil_iff.mp hdrop f hf
    simp [hall] at hstop
  | cons g rest =>
    cases hread : readField entries g <;>
      simp [decodeBinary, decodeJson, decodeFields_eq, hjson, hbinary, hparse, hunpack, hdrop,
        hread]

theorem decoding_iff : Promised parse unpack schema json binary prior ↔
    (binary ≠ [] → ∀ entries, unpack binary = some (.map entries) →
      Fits entries schema.fields prior) ∧
    ¬ (LacksJson parse schema json ∧ LacksBinary unpack schema binary) := by
  constructor
  · intro h
    exact ⟨decodeBinary_allOrNothing.mp h.binary_whole,
      fun hlacks => reports_differ hlacks.1 hlacks.2 (h.reported_alike hlacks.1 hlacks.2)⟩
  · intro h
    exact ⟨decodeJson_allOrNothing, decodeBinary_allOrNothing.mpr h.1,
      fun hjson hbinary => absurd ⟨hjson, hbinary⟩ h.2⟩

/-- Both buffers hold an empty object, the schema has one field, and the destination another. -/
theorem required_field_missing :
    ¬ Promised (fun _ => some (.object [])) (fun _ => some (.map []))
      { tag := [116], version := 1, unit := [117], base := [98], cStruct := [99],
        includePrefix := [112], outBase := [111],
        fields := [{ name := [97], type := [115], required := true }] }
      [123, 125] [128] { fields := fun _ => some .null } := by
  intro h
  have hreport := h.reported_alike ⟨by decide, [], rfl, _, List.mem_cons_self, rfl, by simp⟩
    ⟨by decide, [], rfl, _, List.mem_cons_self, rfl, by simp⟩
  exact absurd hreport (by decide)

end JobSerializer
