import Mathlib.Algebra.Group.Int.Defs
import Mathlib.Algebra.Group.Nat.Defs
import OddBuilder.Serializer.Decoding

/-!
# Encoding an object and decoding it again

Values are compared by their meaning. MessagePack keeps the meaning of every value, JSON that
of the values without floating numbers and without integers that have no 64-bit sign.
-/

namespace JobSerializer

open KeyedMap

/-- Integers and booleans are numbers; a struct is what is found in it. -/
inductive Meaning where
  | null
  | number (value : Int)
  | float (bits : UInt32)
  | double (bits : UInt64)
  | text (value : Text)
  | binary (bytes : List UInt8)
  | list (items : List Meaning)
  | struct (entry : Text → Option Meaning)

def Scalar.meaning : Scalar → Meaning
  | .int32 value => .number value.toInt
  | .uint32 value => .number value.toNat
  | .int64 value => .number value.toInt
  | .uint64 value => .number value.toNat
  | .float bits => .float bits
  | .double bits => .double bits
  | .bool value => .number value.toNat
  | .text value => .text value

mutual

def FieldValue.meaning : FieldValue → Meaning
  | .null => .null
  | .scalar value => value.meaning
  | .binary bytes => .binary bytes
  | .list items => .list (itemsMeaning items)
  | .struct entries => .struct (entriesMeaning entries)

def itemsMeaning : List FieldValue → List Meaning
  | [] => []
  | item :: items => item.meaning :: itemsMeaning items

def entriesMeaning : List (Text × FieldValue) → Text → Option Meaning
  | [], _ => none
  | (key, value) :: entries, name =>
    if key = name then some value.meaning else entriesMeaning entries name

end

theorem entriesMeaning_eq (entries : List (Text × FieldValue)) (name : Text) :
    entriesMeaning entries name = (find entries name).map FieldValue.meaning := by
  induction entries with
  | nil => rfl
  | cons entry entries ih =>
    rw [entriesMeaning, find, ih]
    split <;> rfl

theorem length_itemsMeaning (items : List FieldValue) :
    (itemsMeaning items).length = items.length := by
  induction items with
  | nil => rfl
  | cons item items ih => simp [itemsMeaning, ih]

mutual

/-- No map in the value has a key twice. -/
def FieldValue.Distinct : FieldValue → Prop
  | .list items => itemsDistinct items
  | .struct entries => (entries.map Prod.fst).Nodup ∧ entriesDistinct entries
  | _ => True

def itemsDistinct : List FieldValue → Prop
  | [] => True
  | item :: items => item.Distinct ∧ itemsDistinct items

def entriesDistinct : List (Text × FieldValue) → Prop
  | [] => True
  | (_, value) :: entries => value.Distinct ∧ entriesDistinct entries

end

def Scalar.fitsJson : Scalar → Bool
  | .uint64 value => value.toNat < 2 ^ 63
  | .float _ | .double _ => false
  | _ => true

mutual

/-- No floating number stands in the value, and every integer has a sign bit to spare. -/
def FieldValue.fitsJson : FieldValue → Bool
  | .scalar value => value.fitsJson
  | .list items => itemsFitJson items
  | .struct entries => entriesFitJson entries
  | _ => true

def itemsFitJson : List FieldValue → Bool
  | [] => true
  | item :: items => item.fitsJson && itemsFitJson items

def entriesFitJson : List (Text × FieldValue) → Bool
  | [] => true
  | (_, value) :: entries => value.fitsJson && entriesFitJson entries

end

/-- A value that went through a tree. -/
def throughJson (value : FieldValue) : Option FieldValue := jsonToFieldValue (fieldValueToJson value)

theorem integer_throughJson (n : Int) :
    (jsonToFieldValue (.integer n)).map FieldValue.meaning = some (.number n) ↔
      -2 ^ 63 ≤ n ∧ n < 2 ^ 63 := by
  simp [jsonToFieldValue, FieldValue.meaning, Scalar.meaning, Int.bmod_eq_iff]

theorem scalar_throughJson (s : Scalar) :
    (throughJson (.scalar s)).map FieldValue.meaning = some s.meaning ↔ s.fitsJson = true := by
  cases s with
  | int32 value =>
    have hlow := value.le_toInt
    have hhigh := value.toInt_lt
    exact iff_of_true ((integer_throughJson _).mpr (by omega)) rfl
  | uint32 value =>
    have hhigh := value.toNat_lt
    exact iff_of_true ((integer_throughJson _).mpr (by omega)) rfl
  | int64 value =>
    exact iff_of_true ((integer_throughJson _).mpr ⟨value.le_toInt, value.toInt_lt⟩) rfl
  | uint64 value =>
    refine (integer_throughJson _).trans ?_
    simp only [Scalar.fitsJson, decide_eq_true_eq]
    omega
  | float bits | double bits => exact iff_of_false nofun nofun
  | bool value => cases value <;> exact iff_of_true rfl rfl
  | text value => exact iff_of_true rfl rfl

section Objects

variable {entries : List (Text × FieldValue)}

theorem find_entriesToJson (h : (entries.map Prod.fst).Nodup) (name : Text) :
    ∀ out, find (entriesToJson out entries) name =
      ((find entries name).map fieldValueToJson).or (find out name) := by
  induction entries with
  | nil => exact fun out => rfl
  | cons entry entries ih =>
    intro out
    obtain ⟨hfirst, hrest⟩ := List.nodup_cons.mp h
    rw [entriesToJson, ih hrest, find_insertEntry, find]
    by_cases hkey : entry.1 = name
    · simp [hkey, find_eq_none (hkey ▸ hfirst)]
    · simp [hkey]

theorem sorted_entriesToJson (entries : List (Text × FieldValue)) :
    ∀ out, SortedMap.Sorted keyOrder out →
      SortedMap.Sorted keyOrder (entriesToJson out entries) := by
  induction entries with
  | nil => exact fun out h => h
  | cons entry entries ih => exact fun out h => ih _ (h.insertEntry _ _)

theorem nodup_of_sorted {β : Type} {entries : List (Text × β)}
    (h : SortedMap.Sorted keyOrder entries) : (entries.map Prod.fst).Nodup := by
  refine List.pairwise_map.mpr (h.imp fun {a b} hless heq => ?_)
  rw [heq, keyOrder.irrefl] at hless
  cases hless

theorem find_entriesFromJson {tree : List (Text × Json)} (h : (tree.map Prod.fst).Nodup)
    (name : Text) : ∀ map, find (entriesFromJson map tree) name =
      ((find tree name).bind jsonToFieldValue).or (find map name) := by
  induction tree with
  | nil => exact fun map => rfl
  | cons entry tree ih =>
    intro map
    obtain ⟨hfirst, hrest⟩ := List.nodup_cons.mp h
    rw [entriesFromJson, find]
    by_cases hkey : entry.1 = name
    · cases hvalue : jsonToFieldValue entry.2 <;>
        simp [ih hrest, find_insert, hkey, hvalue, find_eq_none (hkey ▸ hfirst)]
    · cases hvalue : jsonToFieldValue entry.2 <;> simp [ih hrest, find_insert, hkey]

/-- A struct has, behind its tree, what became of its values. -/
theorem struct_throughJson (h : (entries.map Prod.fst).Nodup) :
    (throughJson (.struct entries)).map FieldValue.meaning =
      some (.struct fun name =>
        ((find entries name).bind throughJson).map FieldValue.meaning) := by
  have htree := nodup_of_sorted (sorted_entriesToJson entries [] List.Pairwise.nil)
  simp only [throughJson, fieldValueToJson, jsonToFieldValue, Option.map_some,
    FieldValue.meaning, Option.some.injEq, Meaning.struct.injEq]
  funext name
  rw [entriesMeaning_eq, find_entriesFromJson htree, find_entriesToJson h]
  cases find entries name <;> simp [find, throughJson]

end Objects

theorem length_throughJson (items : List FieldValue) :
    (itemsFromJson (itemsToJson items)).length ≤ items.length := by
  induction items with
  | nil => exact le_rfl
  | cons item items ih =>
    rw [itemsToJson, itemsFromJson]
    cases jsonToFieldValue (fieldValueToJson item) with
    | none => exact ih.trans (Nat.le_succ _)
    | some value => exact Nat.succ_le_succ ih

mutual

/-- JSON keeps the meaning of the values that fit, and of no others. -/
theorem FieldValue.throughJson_iff : ∀ value : FieldValue, value.Distinct →
    ((throughJson value).map FieldValue.meaning = some value.meaning ↔ value.fitsJson = true)
  | .null, _ => iff_of_true rfl rfl
  | .scalar value, _ => scalar_throughJson value
  | .binary bytes, _ => iff_of_true rfl rfl
  | .list items, h => by
    have hitems := itemsThroughJson_iff items h
    simpa [throughJson, fieldValueToJson, jsonToFieldValue, FieldValue.meaning,
      FieldValue.fitsJson] using hitems
  | .struct entries, h => by
    rw [struct_throughJson h.1, FieldValue.meaning, FieldValue.fitsJson,
      ← entriesThroughJson_iff entries h.2, Option.some.injEq, Meaning.struct.injEq, funext_iff]
    constructor
    · intro hsame entry hmem
      have hfound := (find_eq_some_iff h.1).mpr hmem
      simpa [entriesMeaning_eq, hfound] using hsame entry.1
    · intro hsame name
      rw [entriesMeaning_eq]
      cases hfound : find entries name with
      | none => rfl
      | some value => exact hsame _ ((find_eq_some_iff h.1).mp hfound)

theorem itemsThroughJson_iff : ∀ items : List FieldValue, itemsDistinct items →
    (itemsMeaning (itemsFromJson (itemsToJson items)) = itemsMeaning items ↔
      itemsFitJson items = true)
  | [], _ => iff_of_true rfl rfl
  | item :: items, h => by
    have hitem := item.throughJson_iff h.1
    have hitems := itemsThroughJson_iff items h.2
    have hlength := length_throughJson items
    rw [itemsFitJson, Bool.and_eq_true, ← hitem, ← hitems, itemsToJson, itemsFromJson, throughJson]
    cases jsonToFieldValue (fieldValueToJson item) with
    | none =>
      refine iff_of_false (fun heq => ?_) (by simp)
      have := congrArg List.length heq
      simp only [length_itemsMeaning, List.length_cons] at this
      omega
    | some value => simp [itemsMeaning]

theorem entriesThroughJson_iff : ∀ entries : List (Text × FieldValue), entriesDistinct entries →
    ((∀ entry ∈ entries,
      (throughJson entry.2).map FieldValue.meaning = some entry.2.meaning) ↔
        entriesFitJson entries = true)
  | [], _ => by simp [entriesFitJson]
  | (key, value) :: entries, h => by
    rw [entriesFitJson, Bool.and_eq_true, ← value.throughJson_iff h.1,
      ← entriesThroughJson_iff entries h.2, List.forall_mem_cons]

end

theorem packInt_unpacks (value : Int64) : ∃ result, unpackFieldValue (packInt value) = .ok result ∧
    result.meaning = .number value.toInt := by
  rw [packInt]
  split
  · rename_i hpos
    refine ⟨_, rfl, ?_⟩
    rw [FieldValue.meaning, Scalar.meaning, Int64.toNat_toUInt64_of_le hpos, Int64.toNatClampNeg,
      Int.toNat_of_nonneg (Int64.le_iff_toInt_le.mp hpos)]
  · exact ⟨_, rfl, rfl⟩

theorem scalar_unpacks (s : Scalar) : ∃ value, unpackFieldValue (packScalar s) = .ok value ∧
    value.meaning = s.meaning := by
  cases s with
  | int32 value =>
    obtain ⟨result, hunpack, hmeaning⟩ := packInt_unpacks value.toInt64
    exact ⟨result, hunpack, by simpa [Scalar.meaning] using hmeaning⟩
  | int64 value => exact packInt_unpacks value
  | uint32 value => exact ⟨_, rfl, by simp [FieldValue.meaning, Scalar.meaning]⟩
  | bool value => exact ⟨_, rfl, rfl⟩
  | _ => exact ⟨_, rfl, rfl⟩

mutual

theorem FieldValue.unpacks : ∀ value : FieldValue, value.Distinct →
    ∃ result, unpackFieldValue (packFieldValue value) = .ok result ∧
      result.meaning = value.meaning
  | .null, _ => ⟨_, rfl, rfl⟩
  | .scalar value, _ => scalar_unpacks value
  | .binary bytes, _ => ⟨_, rfl, rfl⟩
  | .list items, h => by
    obtain ⟨results, hunpack, hmeaning⟩ := items_unpack items h
    exact ⟨.list results, by simp [packFieldValue, unpackFieldValue, hunpack, Except.map],
      by rw [FieldValue.meaning, FieldValue.meaning, hmeaning]⟩
  | .struct entries, h => by
    obtain ⟨out, hunpack, hmeaning⟩ := entries_unpack entries h.2 h.1 []
    refine ⟨.struct out, by simp [packFieldValue, unpackFieldValue, hunpack, Except.map], ?_⟩
    rw [FieldValue.meaning, FieldValue.meaning, Meaning.struct.injEq]
    funext name
    rw [hmeaning, entriesMeaning, Option.or_none]

theorem items_unpack : ∀ items : List FieldValue, itemsDistinct items →
    ∃ results, unpackItems (packItems items) = .ok results ∧
      itemsMeaning results = itemsMeaning items
  | [], _ => ⟨[], rfl, rfl⟩
  | item :: items, h => by
    obtain ⟨result, hitem, hsame⟩ := item.unpacks h.1
    obtain ⟨results, hitems, hmeaning⟩ := items_unpack items h.2
    exact ⟨result :: results, by simp [packItems, unpackItems, hitem, hitems, Except.map],
      by rw [itemsMeaning, itemsMeaning, hsame, hmeaning]⟩

theorem entries_unpack : ∀ entries : List (Text × FieldValue), entriesDistinct entries →
    (entries.map Prod.fst).Nodup → ∀ map, ∃ out, unpackEntries map (packEntries entries) = .ok out ∧
      ∀ name, entriesMeaning out name =
        (entriesMeaning entries name).or (entriesMeaning map name)
  | [], _, _ => fun map => ⟨map, rfl, fun name => rfl⟩
  | (key, value) :: entries, h, hnodup => by
    intro map
    obtain ⟨hfirst, hrest⟩ := List.nodup_cons.mp hnodup
    obtain ⟨result, hvalue, hsame⟩ := value.unpacks h.1
    obtain ⟨out, hentries, hmeaning⟩ := entries_unpack entries h.2 hrest (map.insert key result)
    refine ⟨out, by simp [packEntries, unpackEntries, MsgPack.asText, hvalue, hentries], ?_⟩
    intro name
    rw [hmeaning, entriesMeaning]
    simp only [entriesMeaning_eq, find_insert]
    by_cases hkey : key = name
    · simp [hkey, hsame, find_eq_none (hkey ▸ hfirst)]
    · simp [hkey]

end

/-- A required field that is missing is written as null. -/
def fieldJson (object : RuntimeObject) (f : Field) : Option Json :=
  match object.getField f.name with
  | some value => some (fieldValueToJson value)
  | none => if f.required then some .null else none

def putField (object : RuntimeObject) (out : List (Text × Json)) (f : Field) :
    List (Text × Json) :=
  match fieldJson object f with
  | some tree => SortedMap.insertEntry keyOrder f.name tree out
  | none => out

/-- The tree begins as null and is made an object by its first entry. -/
def objectToJson (schema : Schema) (object : RuntimeObject) : Json :=
  match schema.fields.foldl (putField object) [] with
  | [] => .null
  | entries => .object entries

/-- `dump` is the library's, `none` where it throws; so is `pack` below. -/
def encodeJson (dump : Json → Option (List UInt8)) (schema : Schema) (object : RuntimeObject) :
    Option (List UInt8) :=
  dump (objectToJson schema object)

def fieldPack (object : RuntimeObject) (f : Field) : MsgPack :=
  match object.getField f.name with
  | some value => packFieldValue value
  | none => .nil

def objectToMap (schema : Schema) (object : RuntimeObject) : MsgPack :=
  .map (schema.fields.map fun f => (.str f.name, fieldPack object f))

def encodeBinary (pack : MsgPack → Option (List UInt8)) (schema : Schema)
    (object : RuntimeObject) : Option (List UInt8) :=
  pack (objectToMap schema object)

/-- The fields of the schema have their values again, and what was optional and absent is absent. -/
def Restores (schema : Schema) (object result : RuntimeObject) : Prop :=
  ∀ f ∈ schema.fields,
    (∀ value, object.getField f.name = some value →
      (result.getField f.name).map FieldValue.meaning = some value.meaning) ∧
    (object.getField f.name = none → f.required = false → result.getField f.name = none)

variable {fields : List Field} {schema : Schema} {object : RuntimeObject} {f : Field}

theorem find_putField (out : List (Text × Json)) (f : Field) (name : Text) :
    find (putField object out f) name =
      if f.name = name then (fieldJson object f).or (find out name) else find out name := by
  rw [putField]
  cases fieldJson object f <;> simp [find_insertEntry]

theorem find_putFields (hnames : (fields.map Field.name).Nodup) :
    ∀ out, ∀ f ∈ fields, find (fields.foldl (putField object) out) f.name =
      (fieldJson object f).or (find out f.name) := by
  induction fields with
  | nil => simp
  | cons g fields ih =>
    intro out f hf
    obtain ⟨hfirst, hrest⟩ := List.nodup_cons.mp hnames
    rw [List.foldl_cons]
    rcases List.mem_cons.mp hf with rfl | hf
    · have hothers : ∀ fields : List Field, f.name ∉ fields.map Field.name → ∀ out,
          find (fields.foldl (putField object) out) f.name = find out f.name := by
        intro fields hnot
        induction fields with
        | nil => exact fun out => rfl
        | cons g fields ih =>
          rw [List.map_cons, List.mem_cons, not_or] at hnot
          intro out
          rw [List.foldl_cons, ih hnot.2, find_putField, if_neg (Ne.symm hnot.1)]
      rw [hothers fields hfirst, find_putField, if_pos rfl]
    · have hne : g.name ≠ f.name := fun heq => hfirst (heq ▸ List.mem_map_of_mem hf)
      rw [ih hrest _ f hf, find_putField, if_neg hne]

theorem findValue_map (hnames : (fields.map Field.name).Nodup) (tree : Field → MsgPack)
    (hf : f ∈ fields) :
    findValue f.name (fields.map fun f => (.str f.name, tree f)) = some (some (tree f)) := by
  induction fields with
  | nil => cases hf
  | cons g fields ih =>
    obtain ⟨hfirst, hrest⟩ := List.nodup_cons.mp hnames
    rcases List.mem_cons.mp hf with rfl | hf
    · simp [findValue, MsgPack.asText]
    · have hne : g.name ≠ f.name := fun heq => hfirst (heq ▸ List.mem_map_of_mem hf)
      simp [findValue, MsgPack.asText, hne, ih hrest hf]

theorem getField_store (value : Text → Option FieldValue) (prior : RuntimeObject)
    (hvalid : schema.isValid = true) (hf : f ∈ schema.fields) :
    (schema.fields.foldl (store value) prior).getField f.name =
      (value f.name).or (prior.fields f.name) := by
  have hname := schema.name_ne_nil hvalid hf
  have hmem := List.mem_map_of_mem (f := Field.name) hf
  rw [RuntimeObject.getField, if_neg (by simpa using hname), foldl_store, if_pos ⟨hname, hmem⟩]

/-- Every field of the schema has been written, be it as null. -/
def Covers (schema : Schema) (object : RuntimeObject) : Prop :=
  ∀ f ∈ schema.fields, object.getField f.name = none → f.required = true

variable {prior : RuntimeObject}

theorem decodeJson_field {parse : List UInt8 → Option Json} {json : List UInt8}
    (hvalid : schema.isValid = true) (hnames : (schema.fields.map Field.name).Nodup)
    (hcovers : Covers schema object) (hne : json ≠ [])
    (hparse : parse json = some (objectToJson schema object)) (hf : f ∈ schema.fields) :
    (decodeJson parse schema prior json).2.getField f.name =
      (fieldJson object f).bind jsonToFieldValue := by
  have hfind := @find_putFields _ object hnames []
  have hentries : ∃ entries, entries = schema.fields.foldl (putField object) [] ∧
      objectToJson schema object = .object entries := by
    rw [objectToJson]
    cases hfold : schema.fields.foldl (putField object) [] with
    | nil =>
      have hnone := hfind f hf
      rw [hfold, fieldJson] at hnone
      cases hfield : object.getField f.name <;>
        simp [hfield, find, hcovers f hf] at hnone
    | cons entry entries => exact ⟨_, rfl, rfl⟩
  obtain ⟨entries, hfold, htree⟩ := hentries
  have hstored := getField_store (jsonValue entries) .empty hvalid hf
  simp only [decodeJson, hparse, htree, List.isEmpty_iff, hne, if_false]
  rw [hstored, jsonValue, hfold, hfind f hf]
  simp [find, RuntimeObject.empty]

theorem decodeBinary_fields {unpack : List UInt8 → Option MsgPack} {binary : List UInt8}
    (hvalid : schema.isValid = true) (hnames : (schema.fields.map Field.name).Nodup)
    (hvalues : ∀ f ∈ schema.fields, ∀ value, object.getField f.name = some value → value.Distinct)
    (hne : binary ≠ []) (hunpack : unpack binary = some (objectToMap schema object)) :
    ∃ result, decodeBinary unpack schema prior binary = some (true, result) ∧
      ∀ f ∈ schema.fields, (result.getField f.name).map FieldValue.meaning =
        some ((object.getField f.name).elim .null FieldValue.meaning) := by
  have hread : ∀ f ∈ schema.fields, ∃ value, unpackFieldValue (fieldPack object f) = .ok value ∧
      value.meaning = (object.getField f.name).elim .null FieldValue.meaning := by
    intro f hf
    rw [fieldPack]
    cases hfield : object.getField f.name with
    | none => exact ⟨_, rfl, rfl⟩
    | some value => exact value.unpacks (hvalues f hf value hfield)
  have hfound : ∀ f ∈ schema.fields, findValue f.name
      (schema.fields.map fun f => (.str f.name, fieldPack object f)) =
        some (some (fieldPack object f)) :=
    fun f hf => findValue_map hnames (fieldPack object) hf
  have hdrop : schema.fields.dropWhile
      (goesOn (schema.fields.map fun f => (.str f.name, fieldPack object f))) = [] := by
    refine List.dropWhile_eq_nil_iff.mpr fun f hf => ?_
    obtain ⟨value, hvalue, -⟩ := hread f hf
    simp [goesOn, readField, hfound f hf, hvalue]
  refine ⟨schema.fields.foldl (store (binaryValue (schema.fields.map fun f =>
    (.str f.name, fieldPack object f)))) prior, ?_, ?_⟩
  · simp [decodeBinary, hne, hunpack, objectToMap, decodeFields_eq, hdrop]
  intro f hf
  obtain ⟨value, hvalue, hmeaning⟩ := hread f hf
  rw [getField_store _ prior hvalid hf]
  simp [binaryValue, hfound f hf, hvalue, Except.toOption, hmeaning]

/-- The library reads what it has written of the tree. -/
def Lossless {α : Type} (write : α → Option (List UInt8)) (read : List UInt8 → Option α)
    (tree : α) : Prop :=
  ∀ bytes, write tree = some bytes → bytes ≠ [] ∧ read bytes = some tree

/-- Both buffers restore the object. -/
def RoundTrips (parse : List UInt8 → Option Json) (unpack : List UInt8 → Option MsgPack)
    (schema : Schema) (object prior : RuntimeObject) (json binary : List UInt8) : Prop :=
  Restores schema object (decodeJson parse schema prior json).2 ∧
    ∃ ok result, decodeBinary unpack schema prior binary = some (ok, result) ∧
      Restores schema object result

/-- Values come back from MessagePack as what they mean, and from JSON if they fit; an optional
field that is absent comes back from MessagePack as null. -/
theorem roundTrip_iff {dump : Json → Option (List UInt8)} {parse : List UInt8 → Option Json}
    {pack : MsgPack → Option (List UInt8)} {unpack : List UInt8 → Option MsgPack}
    {json binary : List UInt8}
    (hvalid : schema.isValid = true) (hnames : (schema.fields.map Field.name).Nodup)
    (hvalues : ∀ f ∈ schema.fields, ∀ value, object.getField f.name = some value → value.Distinct)
    (hparse : Lossless dump parse (objectToJson schema object))
    (hunpack : Lossless pack unpack (objectToMap schema object))
    (hjson : encodeJson dump schema object = some json)
    (hbinary : encodeBinary pack schema object = some binary) :
    RoundTrips parse unpack schema object prior json binary ↔
      Covers schema object ∧ ∀ f ∈ schema.fields, ∀ value,
        object.getField f.name = some value → value.fitsJson = true := by
  obtain ⟨hjsonBytes, hjsonTree⟩ := hparse _ hjson
  obtain ⟨hbytes, htree⟩ := hunpack _ hbinary
  obtain ⟨result, hdecoded, hrestored⟩ :=
    @decodeBinary_fields _ _ prior _ _ hvalid hnames hvalues hbytes htree
  have hcovers : (∃ ok result, decodeBinary unpack schema prior binary = some (ok, result) ∧
      Restores schema object result) ↔ Covers schema object := by
    constructor
    · rintro ⟨_, _, hsome, h⟩ f hf habsent
      obtain ⟨-, rfl⟩ := Prod.mk.inj (Option.some.inj (hdecoded.symm.trans hsome))
      by_contra hrequired
      have hnull := hrestored f hf
      simp [(h f hf).2 habsent (by simpa using hrequired)] at hnull
    · refine fun h => ⟨true, result, hdecoded, fun f hf => ⟨fun value hvalue => ?_, ?_⟩⟩
      · rw [hrestored f hf, hvalue, Option.elim_some]
      · intro habsent hoptional
        simp [h f hf habsent] at hoptional
  rw [RoundTrips, hcovers, and_comm]
  refine and_congr_right fun h => forall₂_congr fun f hf => ?_
  rw [decodeJson_field hvalid hnames h hjsonBytes hjsonTree hf, fieldJson]
  cases hfield : object.getField f.name with
  | none => simp [h f hf hfield]
  | some value => simpa [throughJson] using value.throughJson_iff (hvalues f hf value hfield)

/-- A schema of one optional field. -/
def oneField : Schema :=
  { tag := [116], version := 1, unit := [117], base := [98], cStruct := [99],
    includePrefix := [112], outBase := [111], fields := [{ name := [97], type := [115] }] }

/-- The field holds the number five. -/
def five : RuntimeObject := RuntimeObject.empty.setField [97] (.scalar (.uint32 5))

theorem roundTrip_five : RoundTrips (fun _ => some (objectToJson oneField five))
    (fun _ => some (objectToMap oneField five)) oneField five .empty
      [123, 10, 32, 32, 34, 97, 34, 58, 32, 53, 10, 125] [129, 161, 97, 5] := by
  have hparse : Lossless (fun _ => some [123, 10, 32, 32, 34, 97, 34, 58, 32, 53, 10, 125])
      (fun _ => some (objectToJson oneField five)) (objectToJson oneField five) := by
    rintro bytes ⟨⟩
    exact ⟨by decide, rfl⟩
  have hunpack : Lossless (fun _ => some [129, 161, 97, 5])
      (fun _ => some (objectToMap oneField five)) (objectToMap oneField five) := by
    rintro bytes ⟨⟩
    exact ⟨by decide, rfl⟩
  have hvalue : ∀ f ∈ oneField.fields, five.getField f.name = some (.scalar (.uint32 5)) := by
    intro f hf
    obtain rfl := List.mem_singleton.mp hf
    rfl
  refine (roundTrip_iff (by decide) (by decide) ?_ hparse hunpack rfl rfl).mpr ⟨?_, ?_⟩
  · rintro f hf value h
    obtain rfl := Option.some.inj ((hvalue f hf).symm.trans h)
    trivial
  · intro f hf hnone
    cases (hvalue f hf).symm.trans hnone
  · intro f hf value h
    obtain rfl := Option.some.inj ((hvalue f hf).symm.trans h)
    rfl

/-- The field holds 1.5, which is left out when the JSON text is decoded. -/
def oneAndHalf : RuntimeObject :=
  RuntimeObject.empty.setField [97] (.scalar (.double 0x3ff8000000000000))

theorem double_dropped : ¬ RoundTrips (fun _ => some (objectToJson oneField oneAndHalf))
    (fun _ => some (objectToMap oneField oneAndHalf)) oneField oneAndHalf .empty
      [123, 10, 32, 32, 34, 97, 34, 58, 32, 49, 46, 53, 10, 125]
      [129, 161, 97, 203, 63, 248, 0, 0, 0, 0, 0, 0] := by
  intro h
  have hvalue := (h.1 _ List.mem_cons_self).1 _ rfl
  cases hvalue

end JobSerializer
