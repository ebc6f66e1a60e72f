import Mathlib.Algebra.Group.Nat.Defs
import Mathlib.Data.List.Basic

/-!
# Header fields

The field list of an HTTP message as `JobHttpHeader` keeps it, and the small text
functions that the header and the response parser share. Text is bytes. A search
for a character gives its first position; a number is read only if it takes up
the whole text and fits its type.
-/

namespace JobNet

abbrev Bytes : Type := List UInt8

def ascii (chars : List Char) : Bytes := chars.map fun c => UInt8.ofNat c.toNat

/-- `std::string_view::find`. -/
def find (c : UInt8) : Bytes → Option Nat
  | [] => none
  | b :: text => if b = c then some 0 else (find c text).map (· + 1)

def isDigit (c : UInt8) : Bool := 48 ≤ c && c ≤ 57

/-- The value of a digit in a base up to 16. -/
def digitValue (c : UInt8) : Option Nat :=
  if 48 ≤ c ∧ c ≤ 57 then some (c.toNat - 48)
  else if 97 ≤ c ∧ c ≤ 102 then some (c.toNat - 87)
  else if 65 ≤ c ∧ c ≤ 70 then some (c.toNat - 55)
  else none

/-- The digits of a number in front of those to come; `none` at what is no digit of the base. -/
def digitsFrom (base value : Nat) : Bytes → Option Nat
  | [] => some value
  | c :: text =>
    match digitValue c with
    | none => none
    | some d => if d < base then digitsFrom base (value * base + d) text else none

/-- `std::from_chars` over a whole text, for an unsigned type with largest value `max`. -/
def fromChars (base max : Nat) (text : Bytes) : Option Nat :=
  if text = [] then none
  else (digitsFrom base 0 text).filter (· ≤ max)

/-- The largest `std::size_t`. -/
def maxSize : Nat := 2 ^ 64 - 1

def isOws (c : UInt8) : Bool := c = 32 || c = 9

def trimOws (v : Bytes) : Bytes := ((v.dropWhile isOws).reverse.dropWhile isOws).reverse

/-- A control character other than the tab. -/
def isControl (c : UInt8) : Bool := (c < 32 && c != 9) || c = 127

namespace JobHttpHeader

def lowerAscii (c : UInt8) : UInt8 := if 65 ≤ c ∧ c ≤ 90 then c + 32 else c

def normalizeKey (input : Bytes) : Bytes := input.map lowerAscii

def equalsIgnoreCase (a b : Bytes) : Bool := normalizeKey a = normalizeKey b

def isTChar (c : UInt8) : Bool :=
  (97 ≤ c && c ≤ 122) || (65 ≤ c && c ≤ 90) || isDigit c ||
    c ∈ ascii ['!', '#', '$', '%', '&', '\'', '*', '+', '-', '.', '^', '_', '`', '|', '~']

def isValidFieldName (name : Bytes) : Bool := name ≠ [] && name.all isTChar

def isValidFieldValue (value : Bytes) : Bool := value.all fun c => c ≠ 0 && c ≠ 13 && c ≠ 10

structure Field where
  /-- In lower case. -/
  name : Bytes
  displayName : Bytes
  value : Bytes
deriving DecidableEq

end JobHttpHeader

open JobHttpHeader

structure JobHttpHeader where
  fields : List Field
deriving DecidableEq

namespace JobHttpHeader

def empty : JobHttpHeader := ⟨[]⟩

def makeField (name value : Bytes) : Option Field :=
  if !isValidFieldName name then none
  else if !isValidFieldValue (trimOws value) then none
  else some ⟨normalizeKey name, name, trimOws value⟩

def append (header : JobHttpHeader) (name value : Bytes) : Option JobHttpHeader :=
  (makeField name value).map fun field => ⟨header.fields ++ [field]⟩

def size (header : JobHttpHeader) : Nat := header.fields.length

def contains (header : JobHttpHeader) (name : Bytes) : Bool :=
  header.fields.any fun f => equalsIgnoreCase f.name name

/-- The members of a comma-separated list. -/
def splitCommas : Bytes → List Bytes
  | [] => [[]]
  | c :: text =>
    if c = 44 then [] :: splitCommas text
    else
      match splitCommas text with
      | [] => [[c]]
      | member :: members => (c :: member) :: members

/-- The list members of all fields of a name, in order. -/
def listMembers (header : JobHttpHeader) (name : Bytes) : List Bytes :=
  (header.fields.filter fun f => equalsIgnoreCase f.name name).flatMap fun f =>
    (splitCommas f.value).map trimOws

end JobHttpHeader

end JobNet
