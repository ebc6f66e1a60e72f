import Mathlib.Data.List.Basic
import OddBuilder.Chat.JinjaParser
import OddBuilder.Json.Kernels
import OddBuilder.Library.Traced

/-!
# Values of the template machine

`Value` with its coercions. What floating-point arithmetic gives and the order that a
`std::unordered_map` is iterated in are parameters. Signed 64-bit arithmetic is
reported step by step; a step that C++ leaves undefined has no result.
-/

namespace JobTokenizer

/-- The signed 64-bit operations of the machine, with their operands. -/
inductive IntStep where
  | add (a b : Int64)
  | sub (a b : Int64)
  | mul (a b : Int64)
  | neg (a : Int64)
  | rem (a b : Int64)
  /-- The loop counter of `range` behind an element. -/
  | count (i step : Int64)
  /-- A call of `range` with these arguments. -/
  | range (start stop step : Int64)
  deriving DecidableEq

namespace IntStep

def fits (n : Int) : Prop := -2 ^ 63 ≤ n ∧ n < 2 ^ 63

instance (n : Int) : Decidable (fits n) := inferInstanceAs (Decidable (_ ∧ _))

/-- What the language defines: the exact result is a 64-bit integer, and so is the quotient that a
remainder comes from. -/
def Defined : IntStep → Prop
  | add a b => fits (a.toInt + b.toInt)
  | sub a b => fits (a.toInt - b.toInt)
  | mul a b => fits (a.toInt * b.toInt)
  | neg a => fits (-a.toInt)
  | rem a b => b ≠ 0 ∧ fits (a.toInt.tdiv b.toInt)
  | count i step => fits (i.toInt + step.toInt)
  | range _ _ _ => True

instance : ∀ s : IntStep, Decidable s.Defined
  | add _ _ => inferInstanceAs (Decidable (fits _))
  | sub _ _ => inferInstanceAs (Decidable (fits _))
  | mul _ _ => inferInstanceAs (Decidable (fits _))
  | neg _ => inferInstanceAs (Decidable (fits _))
  | rem _ _ => inferInstanceAs (Decidable (_ ∧ _))
  | count _ _ => inferInstanceAs (Decidable (fits _))
  | range _ _ _ => inferInstanceAs (Decidable True)

def result : IntStep → Int64
  | add a b => a + b
  | sub a b => a - b
  | mul a b => a * b
  | neg a => -a
  | rem a b => a % b
  | count i step => i + step
  | range _ _ _ => 0

/-- One operation, with its result if that is defined. -/
def perform (s : IntStep) : Traced IntStep Int64 := do
  Traced.report s
  if s.Defined then pure s.result else Traced.fail

end IntStep

inductive Value (D : Type) where
  | none
  | bool (value : Bool)
  | int (value : Int64)
  | float (value : D)
  | string (value : Text)
  | list (value : List (Value D))
  | map (value : List (Text × Value D))

/-- A map with the entries in the order they came in. -/
abbrev ValueMap (D : Type) : Type := List (Text × Value D)

/-- `std::unordered_map` with `operator[]` on the left of an assignment. -/
def ValueMap.insert {D : Type} (map : ValueMap D) (key : Text) (value : Value D) : ValueMap D :=
  if map.any fun entry => entry.1 = key then
    map.map fun entry => if entry.1 = key then (key, value) else entry
  else map ++ [(key, value)]

def ValueMap.find {D : Type} (map : ValueMap D) (key : Text) : Option (Value D) :=
  (map.find? fun entry => entry.1 = key).map Prod.snd

/-- What the machine takes from the floating-point unit, the library and the hash function. -/
structure Platform (D : Type) where
  zero : D
  one : D
  /-- `static_cast<double>` and `static_cast<std::int64_t>`. -/
  ofInt : Int64 → D
  toInt : D → Int64
  neg : D → D
  add : D → D → D
  sub : D → D → D
  mul : D → D → D
  div : D → D → D
  pow : D → D → D
  floor : D → D
  less : D → D → Bool
  isZero : D → Bool
  /-- A distance below `1e-9`. -/
  near : D → D → Bool
  /-- `std::to_string`. -/
  toText : D → Text
  /-- The order in which a `std::unordered_map` hands out its entries. -/
  arrange : {α : Type} → List (Text × α) → List (Text × α)

def ascii (text : String) : Text := text.toList.map fun c => UInt8.ofNat c.toNat

namespace Value

variable {D : Type} (platform : Platform D)

def isNone : Value D → Bool
  | none => true
  | _ => false

def isInt : Value D → Bool
  | int _ => true
  | _ => false

def isFloat : Value D → Bool
  | float _ => true
  | _ => false

def isNumber (v : Value D) : Bool := v.isInt || v.isFloat

def isString : Value D → Bool
  | string _ => true
  | _ => false

def asInt : Value D → Int64
  | int value => value
  | float value => platform.toInt value
  | bool value => if value then 1 else 0
  | _ => 0

def asFloat : Value D → D
  | float value => value
  | int value => platform.ofInt value
  | bool value => if value then platform.one else platform.zero
  | _ => platform.zero

def isTruthy : Value D → Bool
  | none => false
  | bool value => value
  | int value => value != 0
  | float value => !platform.isZero value
  | string value => value != []
  | list value => !value.isEmpty
  | map value => !value.isEmpty

def length : Value D → Nat
  | string value => value.length
  | list value => value.length
  | map value => value.length
  | _ => 0

/-- `std::to_string` of a number without the zeros at the end of its fraction. -/
def trimZeros (text : Text) : Text :=
  let front := (text.reverse.dropWhile (· = 48)).reverse
  let kept := if front = [] then text else front
  if kept.getLast? = some 46 then kept.dropLast else kept

def joined (separator : Text) : List Text → Text
  | [] => []
  | [text] => text
  | text :: texts => text ++ separator ++ joined separator texts

mutual

/-- `Value::toString`. -/
def toText : Value D → Text
  | none => []
  | bool value => if value then ascii "True" else ascii "False"
  | int value => JobJson.toChars value.toInt
  | float value => trimZeros (platform.toText value)
  | string value => value
  | list value => ascii "[" ++ joined (ascii ", ") (texts value) ++ ascii "]"
  | map value =>
    ascii "\x7b" ++
      joined (ascii ", ") ((platform.arrange (entryTexts value)).map fun entry =>
        ascii "'" ++ entry.1 ++ ascii "': " ++ entry.2) ++
      ascii "\x7d"

def texts : List (Value D) → List Text
  | [] => []
  | v :: vs => toText v :: texts vs

def entryTexts : List (Text × Value D) → List (Text × Text)
  | [] => []
  | (key, v) :: vs => (key, toText v) :: entryTexts vs

end

/-- A negative index counts from the end. -/
def fromStart (index : Int64) (size : Nat) : Traced IntStep Int64 :=
  if index < 0 then IntStep.perform (.add index (Int64.ofNat size)) else pure index

/-- The position that an index means. -/
def position (index : Int64) (size : Nat) : Traced IntStep (Option Nat) := do
  let index ← fromStart index size
  return if 0 ≤ index ∧ index.toInt.toNat < size then some index.toInt.toNat else Option.none

def getItem (v key : Value D) : Traced IntStep (Value D) :=
  match v with
  | map value => pure ((ValueMap.find value (key.toText platform)).getD none)
  | list value => do
    let index ← position (key.asInt platform) value.length
    return (index.bind fun i => value[i]?).getD none
  | string value => do
    let index ← position (key.asInt platform) value.length
    return ((index.bind fun i => value[i]?).map fun c => string [c]).getD none
  | _ => pure none

mutual

/-- `operator==`. -/
def equals : Value D → Value D → Bool
  | none, none => true
  | bool a, bool b => a == b
  | int a, int b => a == b
  | float a, float b => platform.near a b
  | int a, float b => platform.near (platform.ofInt a) b
  | float a, int b => platform.near a (platform.ofInt b)
  | string a, string b => a == b
  | list a, list b => listEquals a b
  | map a, map b => a.length == b.length && mapEquals a b
  | _, _ => false

def listEquals : List (Value D) → List (Value D) → Bool
  | [], [] => true
  | a :: as, b :: bs => equals a b && listEquals as bs
  | _, _ => false

def mapEquals : List (Text × Value D) → List (Text × Value D) → Bool
  | [], _ => true
  | (key, a) :: as, bs =>
    (match ValueMap.find bs key with
      | some b => equals a b
      | Option.none => false) && mapEquals as bs

end

/-- `operator<`. -/
def lessThan (a b : Value D) : Bool :=
  if a.isNumber && b.isNumber then platform.less (a.asFloat platform) (b.asFloat platform)
  else
    match a, b with
    | string a, string b => List.lex a b (· < ·)
    | _, _ => false

def lessEqual (a b : Value D) : Bool := lessThan platform a b || equals platform a b

/-- `std::string::find` of another text. -/
def containsText (text part : Text) : Bool := text.tails.any fun rest => part.isPrefixOf rest

end Value

end JobTokenizer
