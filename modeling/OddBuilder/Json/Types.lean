import Mathlib.Data.List.Forall2
import OddBuilder.Json.Kernels

/-!
# Types and values

The C++ types that the emitter and the parser are instantiated with, and their
values. A reflected struct is known by its serialised members; a struct may hold
pointers to or sequences of itself, so types refer to structs by name. What
`T{}` gives is part of the schema, since members may have initialisers of their
own; a struct without a default constructor has none.
-/

namespace JobJson

inductive JsonItems where
  | sequence
  | set
  | map
  | entry
  | object
deriving DecidableEq

/-- Whether the order of the items belongs to the value. -/
def JsonItems.ordered : JsonItems → Bool
  | set => false
  | map => false
  | _ => true

inductive JsonValue where
  | bool (b : Bool)
  | integer (n : Int)
  | string (s : Bytes)
  | empty
  | present (v : JsonValue)
  | items (kind : JsonItems) (vs : List JsonValue)

namespace JsonValue

def entry (key mapped : JsonValue) : JsonValue := items .entry [key, mapped]

/-- What a container goes by: the key of a map entry, any other item itself. -/
def key : JsonValue → JsonValue
  | items .entry (k :: _) => k
  | v => v

end JsonValue

/-- Equality of values as `==` has it: pointers by what they point to, sets and maps without regard
to the order of iteration. -/
inductive Same : JsonValue → JsonValue → Prop
  | bool (b : Bool) : Same (.bool b) (.bool b)
  | integer (n : Int) : Same (.integer n) (.integer n)
  | string (s : Bytes) : Same (.string s) (.string s)
  | empty : Same .empty .empty
  | present {v v' : JsonValue} (h : Same v v') : Same (.present v) (.present v')
  | ordered {kind : JsonItems} {vs vs' : List JsonValue} (hkind : kind.ordered = true)
      (h : List.Forall₂ Same vs vs') : Same (.items kind vs) (.items kind vs')
  | unordered {kind : JsonItems} {vs us vs' : List JsonValue} (hkind : kind.ordered = false)
      (h : List.Forall₂ Same vs us) (hperm : us.Perm vs') :
      Same (.items kind vs) (.items kind vs')

/-- A set or map: which keys it takes for one, and in which order it keeps what was inserted. A
multiset takes no two keys for one. -/
structure JsonContainer where
  equivalent : JsonValue → JsonValue → Bool
  arrange : List JsonValue → List JsonValue
  arrange_perm : ∀ vs, (arrange vs).Perm vs
  equivalent_same : ∀ {v v' w w'}, Same v v' → Same w w' → equivalent v w = equivalent v' w'

namespace JsonContainer

/-- Insertion; the item is dropped where an equivalent key is there. -/
def insert (c : JsonContainer) (vs : List JsonValue) (v : JsonValue) : List JsonValue :=
  if vs.any fun w => c.equivalent v.key w.key then vs else c.arrange (vs ++ [v])

/-- No two items have equivalent keys. -/
def Distinct (c : JsonContainer) (vs : List JsonValue) : Prop :=
  vs.Pairwise fun v w => c.equivalent w.key v.key = false

end JsonContainer

inductive JsonWrapper where
  | optional
  | sharedPtr
  /-- With a deleter that a bare pointer is enough for, or one that needs more. -/
  | uniquePtr (fromPointer : Bool)

def JsonWrapper.canMake : JsonWrapper → Bool
  | optional => true
  | sharedPtr => true
  | uniquePtr fromPointer => fromPointer

inductive JsonTy (S : Type) where
  | bool
  | integer (k : JsonInteger)
  | enum (k : JsonInteger)
  | string
  | wrapper (w : JsonWrapper) (ty : JsonTy S)
  | pushBack (ty : JsonTy S)
  | insert (c : JsonContainer) (ty : JsonTy S)
  | fixed (size : Nat) (ty : JsonTy S)
  | map (c : JsonContainer) (key mapped : JsonTy S)
  | struct (s : S)

structure JsonMember (S : Type) where
  name : Bytes
  type : JsonTy S

variable {S : Type}

/-- The values of a type. -/
inductive Typed (members : S → List (JsonMember S)) : JsonTy S → JsonValue → Prop
  | bool (b : Bool) : Typed members .bool (.bool b)
  | integer {k : JsonInteger} {n : Int} (h : k.InRange n) :
      Typed members (.integer k) (.integer n)
  | enum {k : JsonInteger} {n : Int} (h : k.InRange n) : Typed members (.enum k) (.integer n)
  | string (s : Bytes) : Typed members .string (.string s)
  | empty {w : JsonWrapper} {ty : JsonTy S} : Typed members (.wrapper w ty) .empty
  | present {w : JsonWrapper} {ty : JsonTy S} {v : JsonValue} (h : Typed members ty v) :
      Typed members (.wrapper w ty) (.present v)
  | pushBack {ty : JsonTy S} {vs : List JsonValue} (h : ∀ v ∈ vs, Typed members ty v) :
      Typed members (.pushBack ty) (.items .sequence vs)
  | insert {c : JsonContainer} {ty : JsonTy S} {vs : List JsonValue}
      (h : ∀ v ∈ vs, Typed members ty v) (hdistinct : c.Distinct vs) :
      Typed members (.insert c ty) (.items .set vs)
  | fixed {size : Nat} {ty : JsonTy S} {vs : List JsonValue} (hsize : vs.length = size)
      (h : ∀ v ∈ vs, Typed members ty v) : Typed members (.fixed size ty) (.items .sequence vs)
  | map {c : JsonContainer} {key mapped : JsonTy S} {es : List JsonValue}
      (hentry : ∀ e ∈ es, ∃ k m, e = JsonValue.entry k m)
      (hkey : ∀ k m, JsonValue.entry k m ∈ es → Typed members key k)
      (hmapped : ∀ k m, JsonValue.entry k m ∈ es → Typed members mapped m)
      (hdistinct : c.Distinct es) : Typed members (.map c key mapped) (.items .map es)
  | struct {s : S} {vs : List JsonValue} (hlength : vs.length = (members s).length)
      (h : ∀ p ∈ (members s).zip vs, Typed members p.1.type p.2) :
      Typed members (.struct s) (.items .object vs)

structure JsonSchema (S : Type) where
  members : S → List (JsonMember S)
  /-- The struct that default initialisation gives. -/
  initial : S → Option JsonValue
  initial_typed : ∀ s v, initial s = some v → Typed members (.struct s) v

namespace JsonSchema

/-- `T{}`, for default-initialisable types. -/
def defaultValue (schema : JsonSchema S) : JsonTy S → Option JsonValue
  | .bool => some (.bool false)
  | .integer _ => some (.integer 0)
  | .enum _ => some (.integer 0)
  | .string => some (.string [])
  | .wrapper _ _ => some .empty
  | .pushBack _ => some (.items .sequence [])
  | .insert _ _ => some (.items .set [])
  | .fixed size ty =>
    if size = 0 then some (.items .sequence [])
    else (defaultValue schema ty).map fun v => .items .sequence (List.replicate size v)
  | .map _ _ _ => some (.items .map [])
  | .struct s => schema.initial s

/-- Wherever the parser may have to make a value, the type is default-initialisable. -/
def Ready (schema : JsonSchema S) : JsonTy S → Prop
  | .wrapper w ty =>
    w.canMake = true ∧ (schema.defaultValue ty).isSome = true ∧ Ready schema ty
  | .pushBack ty => (schema.defaultValue ty).isSome = true ∧ Ready schema ty
  | .insert _ ty => (schema.defaultValue ty).isSome = true ∧ Ready schema ty
  | .fixed _ ty => Ready schema ty
  | .map _ key mapped =>
    ((schema.defaultValue key).isSome = true ∧ Ready schema key) ∧
      (schema.defaultValue mapped).isSome = true ∧ Ready schema mapped
  | _ => True

theorem inRange_zero (k : JsonInteger) : k.InRange 0 := by
  rcases k with ⟨signed, width⟩
  cases signed <;> cases width <;> decide

/-- Default values are values of their type. -/
theorem defaultValue_typed (schema : JsonSchema S) (ty : JsonTy S) :
    ∀ v, schema.defaultValue ty = some v → Typed schema.members ty v := by
  induction ty with
  | bool =>
    rintro v ⟨⟩
    exact .bool false
  | integer k =>
    rintro v ⟨⟩
    exact .integer (inRange_zero k)
  | enum k =>
    rintro v ⟨⟩
    exact .enum (inRange_zero k)
  | string =>
    rintro v ⟨⟩
    exact .string []
  | wrapper w ty _ =>
    rintro v ⟨⟩
    exact .empty
  | pushBack ty _ =>
    rintro v ⟨⟩
    exact .pushBack (by simp)
  | insert c ty _ =>
    rintro v ⟨⟩
    exact .insert (by simp) (by simp [JsonContainer.Distinct])
  | fixed size ty ih =>
    intro v h
    simp only [defaultValue] at h
    split at h
    · rename_i hzero
      obtain rfl := Option.some.inj h
      exact .fixed (by rw [hzero]; rfl) (by simp)
    · obtain ⟨d, hd, rfl⟩ := Option.map_eq_some_iff.mp h
      refine .fixed (by simp) ?_
      intro v hv
      rw [List.eq_of_mem_replicate hv]
      exact ih d hd
  | map c key mapped _ _ =>
    rintro v ⟨⟩
    exact .map (by simp) (by simp) (by simp) (by simp [JsonContainer.Distinct])
  | struct s =>
    intro v h
    exact schema.initial_typed s v h

end JsonSchema

end JobJson
