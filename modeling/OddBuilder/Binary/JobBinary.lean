import OddBuilder.Library.Collections
import OddBuilder.Library.LittleEndian
import OddBuilder.Library.PrefixReader

/-!
# Types and values of the binary format

The C++ types that `JobBinary` is instantiated with, and their values. A
`BaseObject` may hold pointers to or sequences of its own class, so types refer
to classes by name. Members that are not serialised (signals, and those marked
`NoSerialize`) belong to the value of an object; what they hold may be anything.
A scalar is known by its bytes in memory.
-/

namespace JobBinary

abbrev Bytes : Type := List UInt8

inductive BinaryItems where
  | sequence
  | fixed
  | set
  | map
  | entry
  | object
deriving DecidableEq

/-- Whether the order of the items belongs to the value. -/
def BinaryItems.ordered : BinaryItems → Bool
  | set => false
  | map => false
  | _ => true

inductive BinaryValue where
  | bool (b : Bool)
  | scalar (bytes : Bytes)
  | string (s : Bytes)
  | empty
  | present (v : BinaryValue)
  | items (kind : BinaryItems) (vs : List BinaryValue)
  | unserialized (contents : BinaryValue)

namespace BinaryValue

def entry (key mapped : BinaryValue) : BinaryValue := items .entry [key, mapped]

/-- What a container goes by: the key of a map entry, any other item itself. -/
def key : BinaryValue → BinaryValue
  | items .entry (k :: _) => k
  | v => v

/-- The elements of a container, the members of an object. -/
def inner : BinaryValue → List BinaryValue
  | items _ vs => vs
  | _ => []

end BinaryValue

/-- Equality of values as `==` has it: pointers by what they point to, sets and maps without regard
to the order of iteration. What the members that are not serialised hold is compared by `held`. -/
inductive Alike (held : BinaryValue → BinaryValue → Prop) : BinaryValue → BinaryValue → Prop
  | bool (b : Bool) : Alike held (.bool b) (.bool b)
  | scalar (bytes : Bytes) : Alike held (.scalar bytes) (.scalar bytes)
  | string (s : Bytes) : Alike held (.string s) (.string s)
  | empty : Alike held .empty .empty
  | present {v v' : BinaryValue} (h : Alike held v v') : Alike held (.present v) (.present v')
  | ordered {kind : BinaryItems} {vs vs' : List BinaryValue} (hkind : kind.ordered = true)
      (h : List.Forall₂ (Alike held) vs vs') : Alike held (.items kind vs) (.items kind vs')
  | unordered {kind : BinaryItems} {vs us vs' : List BinaryValue} (hkind : kind.ordered = false)
      (h : List.Forall₂ (Alike held) vs us) (hperm : us.Perm vs') :
      Alike held (.items kind vs) (.items kind vs')
  | unserialized {c c' : BinaryValue} (h : held c c') :
      Alike held (.unserialized c) (.unserialized c')

/-- Equal in every member. -/
def Same : BinaryValue → BinaryValue → Prop := Alike Eq

/-- Equal in every member that is serialised. -/
def Similar : BinaryValue → BinaryValue → Prop := Alike fun _ _ => True

/-- No member that is not serialised stands anywhere in the value. -/
inductive Serialized : BinaryValue → Prop
  | bool (b : Bool) : Serialized (.bool b)
  | scalar (bytes : Bytes) : Serialized (.scalar bytes)
  | string (s : Bytes) : Serialized (.string s)
  | empty : Serialized .empty
  | present {v : BinaryValue} (h : Serialized v) : Serialized (.present v)
  | items {kind : BinaryItems} {vs : List BinaryValue} (h : ∀ v ∈ vs, Serialized v) :
      Serialized (.items kind vs)

/-- A set or map: which keys it takes for one, and in which order it keeps what was inserted. A
multiset, and a set that goes by address, takes no two keys for one. -/
structure BinaryContainer where
  equivalent : BinaryValue → BinaryValue → Bool
  arrange : List BinaryValue → List BinaryValue
  arrange_perm : ∀ vs, (arrange vs).Perm vs

namespace BinaryContainer

/-- The container of elements or entries. -/
def byKey (c : BinaryContainer) : Insertion.Container BinaryValue where
  equivalent v w := c.equivalent v.key w.key
  arrange := c.arrange
  arrange_perm := c.arrange_perm

/-- The container tells its keys apart by what of them is serialised. -/
def BySerialized (c : BinaryContainer) : Prop :=
  ∀ {v v' w w'}, Similar v v' → Similar w w' → c.equivalent v w = c.equivalent v' w'

end BinaryContainer

inductive BinaryWrapper where
  | optional
  | sharedPtr
  | uniquePtr

inductive BinaryTy (S : Type) where
  | bool
  | scalar (size : Nat)
  | string
  | wrapper (w : BinaryWrapper) (ty : BinaryTy S)
  | pushBack (ty : BinaryTy S)
  | insert (c : BinaryContainer) (ty : BinaryTy S)
  | fixed (size : UInt64) (ty : BinaryTy S)
  | map (c : BinaryContainer) (key mapped : BinaryTy S)
  | object (s : S)

inductive BinaryMember (S : Type) where
  | serialized (ty : BinaryTy S)
  | unserialized

variable {S : Type}

/-- The values of a type. Sizes have 64 bits. -/
inductive Typed (members : S → List (BinaryMember S)) : BinaryTy S → BinaryValue → Prop
  | bool (b : Bool) : Typed members .bool (.bool b)
  | scalar {size : Nat} {bytes : Bytes} (h : bytes.length = size) :
      Typed members (.scalar size) (.scalar bytes)
  | string {s : Bytes} (h : s.length < 2 ^ 64) : Typed members .string (.string s)
  | empty {w : BinaryWrapper} {ty : BinaryTy S} : Typed members (.wrapper w ty) .empty
  | present {w : BinaryWrapper} {ty : BinaryTy S} {v : BinaryValue} (h : Typed members ty v) :
      Typed members (.wrapper w ty) (.present v)
  | pushBack {ty : BinaryTy S} {vs : List BinaryValue} (hsize : vs.length < 2 ^ 64)
      (h : ∀ v ∈ vs, Typed members ty v) : Typed members (.pushBack ty) (.items .sequence vs)
  | insert {c : BinaryContainer} {ty : BinaryTy S} {vs : List BinaryValue}
      (hsize : vs.length < 2 ^ 64) (h : ∀ v ∈ vs, Typed members ty v) (hdistinct : c.byKey.Distinct vs) :
      Typed members (.insert c ty) (.items .set vs)
  | fixed {size : UInt64} {ty : BinaryTy S} {vs : List BinaryValue}
      (hlength : vs.length = size.toNat) (h : ∀ v ∈ vs, Typed members ty v) :
      Typed members (.fixed size ty) (.items .fixed vs)
  | map {c : BinaryContainer} {key mapped : BinaryTy S} {es : List BinaryValue}
      (hsize : es.length < 2 ^ 64) (hentry : ∀ e ∈ es, ∃ k m, e = BinaryValue.entry k m)
      (hkey : ∀ k m, BinaryValue.entry k m ∈ es → Typed members key k)
      (hmapped : ∀ k m, BinaryValue.entry k m ∈ es → Typed members mapped m)
      (hdistinct : c.byKey.Distinct es) : Typed members (.map c key mapped) (.items .map es)
  | object {s : S} {vs : List BinaryValue} (hlength : vs.length = (members s).length)
      (hserialized : ∀ ty v, (BinaryMember.serialized ty, v) ∈ (members s).zip vs →
        Typed members ty v)
      (hunserialized : ∀ v, (BinaryMember.unserialized, v) ∈ (members s).zip vs →
        ∃ contents, v = .unserialized contents) :
      Typed members (.object s) (.items .object vs)

structure BinarySchema (S : Type) where
  members : S → List (BinaryMember S)
  /-- The object that `T{}` gives. -/
  initial : S → BinaryValue
  /-- What the factories of the class give, where it has them. -/
  createShared : S → Option BinaryValue
  createUniq : S → Option BinaryValue
  initial_typed : ∀ s, Typed members (.object s) (initial s)
  createShared_typed : ∀ s v, createShared s = some v → Typed members (.object s) v
  createUniq_typed : ∀ s v, createUniq s = some v → Typed members (.object s) v

namespace BinarySchema

/-- `T{}`. -/
def defaultValue (schema : BinarySchema S) : BinaryTy S → BinaryValue
  | .bool => .bool false
  | .scalar size => .scalar (List.replicate size 0)
  | .string => .string []
  | .wrapper _ _ => .empty
  | .pushBack _ => .items .sequence []
  | .insert _ _ => .items .set []
  | .fixed size ty => .items .fixed (List.replicate size.toNat (defaultValue schema ty))
  | .map _ _ _ => .items .map []
  | .object s => schema.initial s

/-- `emplace` of an optional, and `constructPointer`: what stands in a wrapper that is filled. -/
def made (schema : BinarySchema S) : BinaryWrapper → BinaryTy S → BinaryValue
  | .sharedPtr, .object s => (schema.createShared s).getD (schema.initial s)
  | .uniquePtr, .object s => (schema.createUniq s).getD (schema.initial s)
  | _, ty => schema.defaultValue ty

/-- Set elements and map keys are told apart by what of them is serialised. -/
def Plain : BinaryTy S → Prop
  | .wrapper _ ty => Plain ty
  | .pushBack ty => Plain ty
  | .insert c ty => c.BySerialized ∧ Plain ty
  | .fixed _ ty => Plain ty
  | .map c key mapped => c.BySerialized ∧ Plain key ∧ Plain mapped
  | _ => True

/-- Every member of every class is so. -/
def Sound (schema : BinarySchema S) : Prop :=
  ∀ s ty, BinaryMember.serialized ty ∈ schema.members s → Plain ty

/-- Default values are values of their type. -/
theorem defaultValue_typed (schema : BinarySchema S) (ty : BinaryTy S) :
    Typed schema.members ty (schema.defaultValue ty) := by
  induction ty with
  | bool => exact .bool false
  | scalar size => exact .scalar (List.length_replicate ..)
  | string => exact .string (Nat.two_pow_pos 64)
  | wrapper w ty _ => exact .empty
  | pushBack ty _ => exact .pushBack (Nat.two_pow_pos 64) (by simp)
  | insert c ty _ =>
    exact .insert (Nat.two_pow_pos 64) (by simp) (by simp [Insertion.Container.Distinct])
  | fixed size ty ih =>
    refine .fixed (List.length_replicate ..) ?_
    intro v hv
    rw [List.eq_of_mem_replicate hv]
    exact ih
  | map c key mapped _ _ =>
    exact .map (Nat.two_pow_pos 64) (by simp) (by simp) (by simp)
      (by simp [Insertion.Container.Distinct])
  | object s => exact schema.initial_typed s

theorem made_typed (schema : BinarySchema S) (w : BinaryWrapper) (ty : BinaryTy S) :
    Typed schema.members ty (schema.made w ty) := by
  unfold made
  split
  · rename_i s
    cases hmade : schema.createShared s with
    | none => exact schema.initial_typed s
    | some v => exact schema.createShared_typed s v hmade
  · rename_i s
    cases hmade : schema.createUniq s with
    | none => exact schema.initial_typed s
    | some v => exact schema.createUniq_typed s v hmade
  · exact schema.defaultValue_typed ty

end BinarySchema

end JobBinary

/-!
## JobBinary

`write` and `read` choose their branch by the static type, so the type goes
along with the value. `write` gives the bytes that it appends. `read` is given
the destination as it is before and gives it as it is afterwards; an error
stands for an exception. `levels` bounds how many objects `read` may go into one
inside the other, and a value that is none of its type has no branch; in both
cases `read` is stuck.
-/

namespace JobBinary

inductive BinaryError where
  | unexpectedEnd
  | sizeMismatch
  | stuck
deriving DecidableEq

abbrev BinaryReader : Type → Type := PrefixReader UInt8 BinaryError

variable {S : Type}

def writeBool (b : Bool) : Bytes := [if b then 1 else 0]

/-- A `std::uint64_t`, on a little-endian machine. -/
def writeSize (n : Nat) : Bytes := LittleEndian.encode 8 n

mutual

def write (schema : BinarySchema S) : BinaryTy S → BinaryValue → Bytes
  | .wrapper _ _, .empty => writeBool false
  | .wrapper _ ty, .present v => writeBool true ++ write schema ty v
  | .string, .string s => writeSize s.length ++ s
  | .map _ key mapped, .items .map es => writeSize es.length ++ writeEntries schema key mapped es
  | .fixed _ ty, .items .fixed vs => writeSize vs.length ++ writeItems schema ty vs
  | .pushBack ty, .items .sequence vs => writeSize vs.length ++ writeItems schema ty vs
  | .insert _ ty, .items .set vs => writeSize vs.length ++ writeItems schema ty vs
  | .object s, .items .object vs => writeMembers schema (schema.members s) vs
  | .bool, .bool b => writeBool b
  | .scalar _, .scalar bytes => bytes
  | _, _ => []

/-- The loop over the elements. -/
def writeItems (schema : BinarySchema S) (ty : BinaryTy S) : List BinaryValue → Bytes
  | [] => []
  | v :: vs => write schema ty v ++ writeItems schema ty vs

/-- The loop over the entries. -/
def writeEntries (schema : BinarySchema S) (key mapped : BinaryTy S) : List BinaryValue → Bytes
  | .items .entry [k, m] :: es =>
    write schema key k ++ write schema mapped m ++ writeEntries schema key mapped es
  | _ => []

/-- The loop over the members; those that are not serialised are left out. -/
def writeMembers (schema : BinarySchema S) : List (BinaryMember S) → List BinaryValue → Bytes
  | .serialized ty :: ms, v :: vs => write schema ty v ++ writeMembers schema ms vs
  | .unserialized :: ms, _ :: vs => writeMembers schema ms vs
  | _, _ => []

end

section Equations

variable (schema : BinarySchema S) (ty : BinaryTy S) (vs : List BinaryValue)

theorem write_present (w : BinaryWrapper) (v : BinaryValue) :
    write schema (.wrapper w ty) (.present v) = writeBool true ++ write schema ty v := rfl

theorem write_string (s : Bytes) :
    write schema .string (.string s) = writeSize s.length ++ s := rfl

theorem write_map (c : BinaryContainer) (key mapped : BinaryTy S) (es : List BinaryValue) :
    write schema (.map c key mapped) (.items .map es) =
      writeSize es.length ++ writeEntries schema key mapped es := rfl

theorem write_fixed (size : UInt64) :
    write schema (.fixed size ty) (.items .fixed vs) =
      writeSize vs.length ++ writeItems schema ty vs := rfl

theorem write_pushBack :
    write schema (.pushBack ty) (.items .sequence vs) =
      writeSize vs.length ++ writeItems schema ty vs := rfl

theorem write_insert (c : BinaryContainer) :
    write schema (.insert c ty) (.items .set vs) =
      writeSize vs.length ++ writeItems schema ty vs := rfl

theorem write_bool (b : Bool) : write schema .bool (.bool b) = writeBool b := rfl

theorem write_scalar (size : Nat) (bytes : Bytes) :
    write schema (.scalar size) (.scalar bytes) = bytes := rfl

end Equations

def toBytes (schema : BinarySchema S) (ty : BinaryTy S) (v : BinaryValue) : Bytes :=
  write schema ty v

def readBytes (n : Nat) : BinaryReader Bytes := PrefixReader.take .unexpectedEnd n

def readBool : BinaryReader Bool := do
  let bytes ← readBytes 1
  return bytes != [0]

def readSize : BinaryReader Nat := do
  let bytes ← readBytes 8
  return LittleEndian.decode bytes

/-- `count` elements, each put into the container once it is read. -/
def readItems (element : BinaryReader BinaryValue)
    (put : List BinaryValue → BinaryValue → List BinaryValue) :
    Nat → List BinaryValue → BinaryReader (List BinaryValue)
  | 0, vs => return vs
  | count + 1, vs => do
    let v ← element
    readItems element put count (put vs v)

/-- The elements of an array, each read over the one that is there. -/
def readFixed (element : BinaryValue → BinaryReader BinaryValue) :
    List BinaryValue → BinaryReader (List BinaryValue)
  | [] => return []
  | dest :: dests => do
    let v ← element dest
    let vs ← readFixed element dests
    return v :: vs

/-- The members, each read over the one that is there; those that are not serialised stay. -/
def readMembers (member : BinaryTy S → BinaryValue → BinaryReader BinaryValue) :
    List (BinaryMember S) → List BinaryValue → BinaryReader (List BinaryValue)
  | .serialized ty :: ms, dest :: dests => do
    let v ← member ty dest
    let vs ← readMembers member ms dests
    return v :: vs
  | .unserialized :: ms, dest :: dests => do
    let vs ← readMembers member ms dests
    return dest :: vs
  | [], [] => return []
  | _, _ => throw .stuck

/-- `read`, but for objects. -/
def readAs (schema : BinarySchema S) (object : S → BinaryValue → BinaryReader BinaryValue) :
    BinaryTy S → BinaryValue → BinaryReader BinaryValue
  | .wrapper w ty, _ => do
    let present ← readBool
    if present then
      let v ← readAs schema object ty (schema.made w ty)
      return .present v
    else return .empty
  | .string, _ => do
    let length ← readSize
    let s ← readBytes length
    return .string s
  | .map c key mapped, _ => do
    let count ← readSize
    let entry : BinaryReader BinaryValue := do
      let k ← readAs schema object key (schema.defaultValue key)
      let m ← readAs schema object mapped (schema.defaultValue mapped)
      return .entry k m
    let es ← readItems entry c.byKey.insert count []
    return .items .map es
  | .fixed size ty, dest => do
    let count ← readSize
    if count ≠ size.toNat then throw .sizeMismatch
    let vs ← readFixed (readAs schema object ty) dest.inner
    return .items .fixed vs
  | .pushBack ty, _ => do
    let count ← readSize
    let vs ← readItems (readAs schema object ty (schema.defaultValue ty)) (fun vs v => vs ++ [v])
      count []
    return .items .sequence vs
  | .insert c ty, _ => do
    let count ← readSize
    let vs ← readItems (readAs schema object ty (schema.defaultValue ty)) c.byKey.insert count []
    return .items .set vs
  | .object s, dest => object s dest
  | .bool, _ => do
    let b ← readBool
    return .bool b
  | .scalar size, _ => do
    let bytes ← readBytes size
    return .scalar bytes

def readObject (schema : BinarySchema S) : Nat → S → BinaryValue → BinaryReader BinaryValue
  | 0, _, _ => throw .stuck
  | levels + 1, s, dest => do
    let vs ← readMembers (readAs schema (readObject schema levels)) (schema.members s) dest.inner
    return .items .object vs

def read (schema : BinarySchema S) (levels : Nat) (ty : BinaryTy S) (dest : BinaryValue) :
    BinaryReader BinaryValue :=
  readAs schema (readObject schema levels) ty dest

section Equations

variable (schema : BinarySchema S) (levels : Nat) (ty : BinaryTy S) (dest : BinaryValue)

theorem read_wrapper (w : BinaryWrapper) : read schema levels (.wrapper w ty) dest = (do
    let present ← readBool
    if present then
      let v ← read schema levels ty (schema.made w ty)
      return .present v
    else return .empty) := rfl

theorem read_string : read schema levels .string dest = (do
    let length ← readSize
    let s ← readBytes length
    return .string s) := rfl

theorem read_map (c : BinaryContainer) (key mapped : BinaryTy S) :
    read schema levels (.map c key mapped) dest = (do
      let count ← readSize
      let entry : BinaryReader BinaryValue := do
        let k ← readAs schema (readObject schema levels) key (schema.defaultValue key)
        let m ← readAs schema (readObject schema levels) mapped (schema.defaultValue mapped)
        return .entry k m
      let es ← readItems entry c.byKey.insert count []
      return .items .map es) := rfl

theorem read_fixed (size : UInt64) : read schema levels (.fixed size ty) dest = (do
    let count ← readSize
    if count ≠ size.toNat then throw .sizeMismatch
    let vs ← readFixed (readAs schema (readObject schema levels) ty) dest.inner
    return .items .fixed vs) := rfl

theorem read_pushBack : read schema levels (.pushBack ty) dest = (do
    let count ← readSize
    let vs ← readItems (readAs schema (readObject schema levels) ty (schema.defaultValue ty))
      (fun vs v => vs ++ [v]) count []
    return .items .sequence vs) := rfl

theorem read_insert (c : BinaryContainer) : read schema levels (.insert c ty) dest = (do
    let count ← readSize
    let vs ← readItems (readAs schema (readObject schema levels) ty (schema.defaultValue ty))
      c.byKey.insert count []
    return .items .set vs) := rfl

theorem read_bool : read schema levels .bool dest = (do
    let b ← readBool
    return .bool b) := rfl

theorem read_scalar (size : Nat) : read schema levels (.scalar size) dest = (do
    let bytes ← readBytes size
    return .scalar bytes) := rfl

end Equations

/-- What `fromBytes` comes to: the destination where it returns true, or false. -/
inductive FromBytes where
  | stored (v : BinaryValue)
  | refused
  | stuck

def fromBytes (schema : BinarySchema S) (levels : Nat) (ty : BinaryTy S) (input : Bytes)
    (dest : BinaryValue) : FromBytes :=
  match (read schema levels ty dest).run input with
  | .ok (v, []) => .stored v
  | .ok (_, _ :: _) => .refused
  | .error .stuck => .stuck
  | .error _ => .refused

end JobBinary
