import Mathlib.Logic.Function.Basic
import OddBuilder.Library.Collections

/-!
# Runtime objects

Schemas, the values of their fields, and the conversions between such a value and the
trees of the JSON and the MessagePack library. What the libraries do with their trees is
left to them.
-/

namespace JobSerializer

/-- A byte string. -/
abbrev Text := List UInt8

inductive FieldKind where
  | scalar | bin | struct | listScalar | listBin | listStruct
  deriving DecidableEq

structure Field where
  name : Text
  type : Text
  kind : FieldKind := .scalar
  refSym : Option Text := none
  required : Bool := false

/-- `Field::isValid` -/
def Field.isValid (fields : List Field) : Bool :=
  fields.all fun f =>
    !(f.name.isEmpty || f.type.isEmpty) &&
      !((f.kind == .struct || f.kind == .listStruct) && f.refSym.isNone)

structure Schema where
  tag : Text
  version : Int
  unit : Text
  base : Text
  cStruct : Text
  includePrefix : Text
  outBase : Text
  fields : List Field

def Schema.isValid (schema : Schema) : Bool :=
  !schema.tag.isEmpty && 0 < schema.version && !schema.unit.isEmpty && !schema.base.isEmpty &&
    !schema.cStruct.isEmpty && !schema.includePrefix.isEmpty && !schema.outBase.isEmpty &&
    !schema.fields.isEmpty && Field.isValid schema.fields

theorem Schema.name_ne_nil {schema : Schema} (h : schema.isValid = true) {f : Field}
    (hf : f ∈ schema.fields) : f.name ≠ [] := by
  simp only [isValid, Field.isValid, Bool.and_eq_true, List.all_eq_true] at h
  have hname := (h.2 f hf).1
  intro hempty
  simp [hempty] at hname

/-- A floating value is kept as its bits. -/
inductive Scalar where
  | int32 (value : Int32)
  | uint32 (value : UInt32)
  | int64 (value : Int64)
  | uint64 (value : UInt64)
  | float (bits : UInt32)
  | double (bits : UInt64)
  | bool (value : Bool)
  | text (value : Text)

inductive FieldValue where
  | null
  | scalar (value : Scalar)
  | binary (bytes : List UInt8)
  | list (items : List FieldValue)
  | struct (entries : List (Text × FieldValue))

@[ext] structure RuntimeObject where
  fields : Text → Option FieldValue

namespace RuntimeObject

def getField (object : RuntimeObject) (name : Text) : Option FieldValue :=
  if name.isEmpty then none else object.fields name

def setField (object : RuntimeObject) (name : Text) (value : FieldValue) : RuntimeObject :=
  if name.isEmpty then object
  else { fields := Function.update object.fields name (some value) }

/-- The object without fields, which `clear()` leaves. -/
def empty : RuntimeObject := { fields := fun _ => none }

theorem setField_fields (object : RuntimeObject) (name other : Text) (value : FieldValue) :
    (object.setField name value).fields other =
      if name ≠ [] ∧ name = other then some value else object.fields other := by
  by_cases hempty : name = []
  · simp [setField, hempty]
  · by_cases hname : name = other
    · simp [setField, hempty, ← hname]
    · simp [setField, hempty, hname, Function.update_of_ne (Ne.symm hname)]

end RuntimeObject

/-- An object of the JSON library has its entries in the order of their keys. Of its two
kinds of integers `is_number_integer` takes both; here they are the number. -/
inductive Json where
  | null
  | boolean (value : Bool)
  | integer (value : Int)
  | float (bits : UInt32)
  | double (bits : UInt64)
  | string (value : Text)
  | binary (bytes : List UInt8)
  | array (items : List Json)
  | object (entries : List (Text × Json))

/-- The order of `std::string`. -/
def keyOrder : Comparison Text where
  less a b := decide (a < b)
  irrefl a := decide_eq_false (List.lt_irrefl a)
  trans hab hbc := by
    rw [decide_eq_true_eq] at hab hbc ⊢
    exact List.lt_trans hab hbc
  total hab hba := by
    rw [decide_eq_false_iff_not] at hab hba
    exact List.le_antisymm hba hab

def jsonToScalar : Scalar → Json
  | .int32 value => .integer value.toInt
  | .uint32 value => .integer value.toNat
  | .int64 value => .integer value.toInt
  | .uint64 value => .integer value.toNat
  | .float bits => .float bits
  | .double bits => .double bits
  | .bool value => .boolean value
  | .text value => .string value

mutual

/-- Only memory can run out here: the conversion of an item or an entry never fails. -/
def fieldValueToJson : FieldValue → Json
  | .null => .null
  | .scalar value => jsonToScalar value
  | .binary bytes => .binary bytes
  | .list items => .array (itemsToJson items)
  | .struct entries => .object (entriesToJson [] entries)

def itemsToJson : List FieldValue → List Json
  | [] => []
  | item :: items => fieldValueToJson item :: itemsToJson items

/-- `out_j[key] = j_val` -/
def entriesToJson (out : List (Text × Json)) : List (Text × FieldValue) → List (Text × Json)
  | [] => out
  | (key, value) :: entries =>
    entriesToJson (SortedMap.insertEntry keyOrder key (fieldValueToJson value) out) entries

end

mutual

/-- `jsonToFieldValue_DumbRecursive`: there is no case for floating numbers, and an item
or an entry that is not converted is left out. -/
def jsonToFieldValue : Json → Option FieldValue
  | .null => some .null
  | .string value => some (.scalar (.text value))
  | .boolean value => some (.scalar (.uint32 value.toUInt32))
  | .integer value => some (.scalar (.int64 (Int64.ofInt value)))
  | .binary bytes => some (.binary bytes)
  | .array items => some (.list (itemsFromJson items))
  | .object entries => some (.struct (entriesFromJson [] entries))
  | .float _ => none
  | .double _ => none

def itemsFromJson : List Json → List FieldValue
  | [] => []
  | item :: items =>
    match jsonToFieldValue item with
    | some value => value :: itemsFromJson items
    | none => itemsFromJson items

def entriesFromJson (map : KeyedMap Text FieldValue) : List (Text × Json) → KeyedMap Text FieldValue
  | [] => map
  | (key, item) :: entries =>
    match jsonToFieldValue item with
    | some value => entriesFromJson (map.insert key value) entries
    | none => entriesFromJson map entries

end

inductive MsgPack where
  | nil
  | boolean (value : Bool)
  | positive (value : UInt64)
  | negative (value : Int64)
  | float32 (bits : UInt32)
  | float64 (bits : UInt64)
  | str (text : Text)
  | bin (bytes : List UInt8)
  | array (items : List MsgPack)
  | map (entries : List (MsgPack × MsgPack))
  | ext (bytes : List UInt8)

/-- `as<std::string>()`, or `none` where it throws. -/
def MsgPack.asText : MsgPack → Option Text
  | .str text => some text
  | .bin bytes => some bytes
  | _ => none

/-- A number that is not negative is packed as a positive one. -/
def packInt (value : Int64) : MsgPack :=
  if 0 ≤ value then .positive value.toUInt64 else .negative value

/-- `ScalarPackVisitor` -/
def packScalar : Scalar → MsgPack
  | .int32 value => packInt value.toInt64
  | .uint32 value => .positive value.toUInt64
  | .int64 value => packInt value
  | .uint64 value => .positive value
  | .float bits => .float32 bits
  | .double bits => .float64 bits
  | .bool value => .boolean value
  | .text value => .str value

mutual

def packFieldValue : FieldValue → MsgPack
  | .null => .nil
  | .scalar value => packScalar value
  | .binary bytes => .bin bytes
  | .list items => .array (packItems items)
  | .struct entries => .map (packEntries entries)

def packItems : List FieldValue → List MsgPack
  | [] => []
  | item :: items => packFieldValue item :: packItems items

def packEntries : List (Text × FieldValue) → List (MsgPack × MsgPack)
  | [] => []
  | (key, value) :: entries => (.str key, packFieldValue value) :: packEntries entries

end

/-- A value that is not unpacked: `unpackFieldValue` returns false at an unsupported one,
and as it is `noexcept` a key that is no text ends the program. -/
inductive Stop where
  | unsupported
  | terminate
  deriving DecidableEq

mutual

def unpackFieldValue : MsgPack → Except Stop FieldValue
  | .nil => .ok .null
  | .negative value => .ok (.scalar (.int64 value))
  | .positive value => .ok (.scalar (.uint64 value))
  | .str text => .ok (.scalar (.text text))
  | .boolean value => .ok (.scalar (.bool value))
  | .float32 bits => .ok (.scalar (.float bits))
  | .float64 bits => .ok (.scalar (.double bits))
  | .bin bytes => .ok (.binary bytes)
  | .array items => (unpackItems items).map .list
  | .map entries => (unpackEntries [] entries).map .struct
  | .ext _ => .error .unsupported

def unpackItems : List MsgPack → Except Stop (List FieldValue)
  | [] => .ok []
  | item :: items =>
    match unpackFieldValue item with
    | .ok value => (unpackItems items).map (value :: ·)
    | .error stop => .error stop

def unpackEntries (map : KeyedMap Text FieldValue) :
    List (MsgPack × MsgPack) → Except Stop (KeyedMap Text FieldValue)
  | [] => .ok map
  | (key, item) :: entries =>
    match key.asText with
    | none => .error .terminate
    | some name =>
      match unpackFieldValue item with
      | .ok value => unpackEntries (map.insert name value) entries
      | .error stop => .error stop

end

end JobSerializer
