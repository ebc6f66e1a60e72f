import Mathlib.Algebra.Group.Int.Defs
import OddBuilder.Yaml.BlockScalar

/-!
# Integers

`YamlScalarKernel::parseInteger`. A sign, a prefix for the base and the digits are read
one after the other, the digits by `std::from_chars` into the unsigned type.
-/

namespace JobYaml

structure IntegerType where
  signed : Bool
  bits : Nat
  bits_pos : 0 < bits

namespace IntegerType

def max (ty : IntegerType) : Int := if ty.signed then 2 ^ (ty.bits - 1) - 1 else 2 ^ ty.bits - 1

def min (ty : IntegerType) : Int := if ty.signed then -2 ^ (ty.bits - 1) else 0

/-- A result that the type holds; without one the computation overflows. -/
def checked (ty : IntegerType) (n : Int) : Option Int :=
  if ty.min ≤ n ∧ n ≤ ty.max then some n else none

/-- `std::make_unsigned_t` -/
def unsigned (ty : IntegerType) : IntegerType := { ty with signed := false }

end IntegerType

/-- The number that a character stands for; all others are out of every base. -/
def digitValue (c : UInt8) : Nat :=
  if 48 ≤ c ∧ c ≤ 57 then c.toNat - 48
  else if 97 ≤ c ∧ c ≤ 102 then c.toNat - 87
  else if 65 ≤ c ∧ c ≤ 70 then c.toNat - 55
  else 16

def isDigit (base : Nat) (c : UInt8) : Bool := digitValue c < base

def numberOf (base : Nat) (digits : Text) : Nat :=
  digits.foldl (fun n c => n * base + digitValue c) 0

/-- `std::from_chars` reads the digits in front, unless there are none or their number is out
of range. -/
def fromChars (ty : IntegerType) (base : Nat) (text : Text) : Option (Nat × Text) :=
  let digits := text.takeWhile (isDigit base)
  if digits = [] then none
  else if ty.max < numberOf base digits then none
  else some (numberOf base digits, text.dropWhile (isDigit base))

theorem fromChars_iff {ty : IntegerType} {base m : Nat} {text : Text} :
    fromChars ty base text = some (m, []) ↔
      text ≠ [] ∧ (∀ c ∈ text, isDigit base c = true) ∧ m = numberOf base text ∧ m ≤ ty.max := by
  have hall : text.dropWhile (isDigit base) = [] ↔ ∀ c ∈ text, isDigit base c = true :=
    List.dropWhile_eq_nil_iff
  by_cases hdigits : ∀ c ∈ text, isDigit base c = true
  · have htake : text.takeWhile (isDigit base) = text := List.takeWhile_eq_self_iff.mpr hdigits
    rw [fromChars, htake, hall.mpr hdigits]
    by_cases hempty : text = []
    · simp [hempty]
    · by_cases hrange : ty.max < numberOf base text
      · simp only [hempty, hrange, if_false, if_true, reduceCtorEq, false_iff]
        rintro ⟨-, -, rfl, hle⟩
        exact absurd hrange (Int.not_lt.mpr hle)
      · simp only [hempty, hrange, if_false, Option.some.injEq, Prod.mk.injEq, and_true]
        constructor
        · rintro rfl
          exact ⟨hempty, hdigits, rfl, Int.not_lt.mp hrange⟩
        · exact fun h => h.2.2.1.symm
  · refine iff_of_false (fun h => ?_) fun h => hdigits h.2.1
    simp only [fromChars] at h
    split at h
    · cases h
    · split at h
      · cases h
      · simp only [Option.some.injEq, Prod.mk.injEq] at h
        exact hdigits (hall.mp h.2)

/-- Whether there is a minus, and what follows the sign. -/
def splitSign : Text → Bool × Text
  | [] => (false, [])
  | c :: rest => if c = 43 ∨ c = 45 then (decide (c = 45), rest) else (false, c :: rest)

/-- The base, and what follows its prefix; a prefix needs a character behind it. -/
def splitBase : Text → Nat × Text
  | z :: x :: c :: rest =>
    if z = 48 ∧ (x = 120 ∨ x = 88) then (16, c :: rest)
    else if z = 48 ∧ (x = 111 ∨ x = 79) then (8, c :: rest)
    else (10, z :: x :: c :: rest)
  | text => (10, text)

/-- The sign and the magnitude of the text; without them `parseInteger` returns false. -/
def readMagnitude (ty : IntegerType) (text : Text) : Option (Bool × Nat) :=
  let (negative, rest) := splitSign text
  if rest = [] then none
  else
    let (base, digits) := splitBase rest
    match fromChars ty.unsigned base digits with
    | some (magnitude, []) => some (negative, magnitude)
    | _ => none

/-- The end of `parseInteger`: what is returned and stored, or `none` where it overflows. -/
def store (ty : IntegerType) (negative : Bool) (magnitude : Nat) (result : Int) :
    Option (Bool × Int) :=
  if ty.signed then
    if negative then
      (ty.unsigned.checked (ty.max + 1)).bind fun limit =>
        if magnitude > limit then some (false, result)
        else if magnitude = limit then some (true, ty.min)
        else (ty.checked magnitude).bind fun n => (ty.checked (-n)).map (true, ·)
    else if magnitude > ty.max then some (false, result)
    else (ty.checked magnitude).map (true, ·)
  else if negative then some (false, result)
  else (ty.checked magnitude).map (true, ·)

def parseInteger (ty : IntegerType) (text : Text) (result : Int) : Option (Bool × Int) :=
  match readMagnitude ty text with
  | none => some (false, result)
  | some (negative, magnitude) => store ty negative magnitude result

/-- Digits, with the prefix of their base. -/
inductive Magnitude : Text → Nat → Prop
  | decimal {digits : Text} (hne : digits ≠ []) (hdigits : ∀ c ∈ digits, isDigit 10 c = true) :
      Magnitude digits (numberOf 10 digits)
  | hexadecimal {x : UInt8} {digits : Text} (hx : x = 120 ∨ x = 88) (hne : digits ≠ [])
      (hdigits : ∀ c ∈ digits, isDigit 16 c = true) :
      Magnitude (48 :: x :: digits) (numberOf 16 digits)
  | octal {x : UInt8} {digits : Text} (hx : x = 111 ∨ x = 79) (hne : digits ≠ [])
      (hdigits : ∀ c ∈ digits, isDigit 8 c = true) :
      Magnitude (48 :: x :: digits) (numberOf 8 digits)

/-- The text of a magnitude with a sign, or with none. -/
inductive Signed : Text → Bool → Nat → Prop
  | none {body : Text} {m : Nat} (h : Magnitude body m) : Signed body false m
  | plus {body : Text} {m : Nat} (h : Magnitude body m) : Signed (43 :: body) false m
  | minus {body : Text} {m : Nat} (h : Magnitude body m) : Signed (45 :: body) true m

def signedValue (negative : Bool) (m : Nat) : Int := if negative then -m else m

/-- The text is an integer of the type, with this value. -/
def IsInteger (ty : IntegerType) (text : Text) (n : Int) : Prop :=
  ∃ negative m, Signed text negative m ∧ (negative = true → ty.signed = true) ∧
    n = signedValue negative m ∧ ty.min ≤ n ∧ n ≤ ty.max

theorem Magnitude.ne_nil {body : Text} {m : Nat} (h : Magnitude body m) : body ≠ [] := by
  cases h with
  | decimal hne => exact hne
  | hexadecimal | octal => exact List.cons_ne_nil _ _

/-- A magnitude begins with a digit. -/
theorem Magnitude.head {c : UInt8} {rest : Text} {m : Nat} (h : Magnitude (c :: rest) m) :
    isDigit 10 c = true := by
  cases h with
  | decimal hne hdigits => exact hdigits c List.mem_cons_self
  | hexadecimal | octal => rfl

theorem magnitude_of_splitBase {body digits : Text} {base : Nat}
    (h : splitBase body = (base, digits)) (hne : digits ≠ [])
    (hdigits : ∀ c ∈ digits, isDigit base c = true) : Magnitude body (numberOf base digits) := by
  unfold splitBase at h
  split at h
  · split at h
    · rename_i hprefix
      obtain ⟨rfl, hx⟩ := hprefix
      cases h
      exact .hexadecimal hx hne hdigits
    · split at h
      · rename_i hprefix
        obtain ⟨rfl, hx⟩ := hprefix
        cases h
        exact .octal hx hne hdigits
      · cases h
        exact .decimal hne hdigits
  · cases h
    exact .decimal hne hdigits

/-- Behind its prefix the text of a magnitude is all digits. -/
theorem splitBase_iff {ty : IntegerType} {body : Text} {m : Nat} :
    fromChars ty (splitBase body).1 (splitBase body).2 = some (m, []) ↔
      Magnitude body m ∧ m ≤ ty.max := by
  rw [fromChars_iff]
  constructor
  · rintro ⟨hne, hdigits, rfl, hle⟩
    exact ⟨magnitude_of_splitBase rfl hne hdigits, hle⟩
  · rintro ⟨h, hle⟩
    cases h with
    | decimal hne hdigits =>
      have hbase : splitBase body = (10, body) := by
        unfold splitBase
        split
        · rename_i z x c rest
          have hx := hdigits x (by simp)
          rw [if_neg, if_neg]
          · rintro ⟨-, rfl | rfl⟩ <;> cases hx
          · rintro ⟨-, rfl | rfl⟩ <;> cases hx
        · rfl
      rw [hbase]
      exact ⟨hne, hdigits, rfl, hle⟩
    | @hexadecimal x digits hx hne hdigits =>
      obtain ⟨c, rest, rfl⟩ := List.exists_cons_of_ne_nil hne
      rw [splitBase, if_pos ⟨rfl, hx⟩]
      exact ⟨hne, hdigits, rfl, hle⟩
    | @octal x digits hx hne hdigits =>
      obtain ⟨c, rest, rfl⟩ := List.exists_cons_of_ne_nil hne
      have hhex : ¬ (x = 120 ∨ x = 88) := by rcases hx with rfl | rfl <;> decide
      rw [splitBase, if_neg fun h => hhex h.2, if_pos ⟨rfl, hx⟩]
      exact ⟨hne, hdigits, rfl, hle⟩

theorem readMagnitude_iff {ty : IntegerType} {text : Text} {negative : Bool} {m : Nat} :
    readMagnitude ty text = some (negative, m) ↔
      Signed text negative m ∧ m ≤ ty.unsigned.max := by
  have hread : readMagnitude ty text = some (negative, m) ↔
      (splitSign text).1 = negative ∧ Magnitude (splitSign text).2 m ∧ m ≤ ty.unsigned.max := by
    rw [← splitBase_iff, readMagnitude]
    by_cases hrest : (splitSign text).2 = []
    · simp [hrest, splitBase, fromChars]
    · simp only [hrest, if_false]
      split
      · rename_i magnitude hchars
        simp [hchars]
      · rename_i hother
        refine iff_of_false (fun h => by cases h) fun h => hother m h.2
  rw [hread, ← and_assoc]
  refine and_congr_left fun _ => ⟨?_, fun h => ?_⟩
  · rintro ⟨rfl, h⟩
    cases text with
    | nil => exact .none h
    | cons c rest =>
      rw [splitSign] at h ⊢
      split at h
      · rename_i hsign
        rcases hsign with rfl | rfl
        · exact .plus h
        · exact .minus h
      · rename_i hsign
        rw [if_neg hsign]
        exact .none h
  · cases h with
    | plus h => exact ⟨rfl, h⟩
    | minus h => exact ⟨rfl, h⟩
    | none h =>
      obtain ⟨c, rest, rfl⟩ := List.exists_cons_of_ne_nil h.ne_nil
      have hsign : ¬ (c = 43 ∨ c = 45) := by
        have hdigit := h.head
        rintro (rfl | rfl) <;> cases hdigit
      rw [splitSign, if_neg hsign]
      exact ⟨rfl, h⟩

theorem IntegerType.limits (ty : IntegerType) :
    (ty.signed = true → ty.min = -(ty.max + 1) ∧ ty.unsigned.max = 2 * ty.max + 1 ∧ 0 ≤ ty.max) ∧
    (ty.signed = false → ty.min = 0 ∧ ty.unsigned.max = ty.max) ∧ ty.unsigned.min = 0 := by
  obtain ⟨k, hk⟩ := Nat.exists_eq_add_one.mpr ty.bits_pos
  have hpos : (0 : Int) < 2 ^ k := Int.pow_pos (by decide)
  refine ⟨fun h => ?_, fun h => ?_, rfl⟩
  · simp [min, max, unsigned, h, hk]
    omega
  · simp [min, max, unsigned, h]

/-- The magnitude of what the type holds is in the range of the unsigned type. -/
theorem magnitude_le {ty : IntegerType} {negative : Bool} {m : Nat}
    (hsign : negative = true → ty.signed = true) (hlow : ty.min ≤ signedValue negative m)
    (hhigh : signedValue negative m ≤ ty.max) : m ≤ ty.unsigned.max := by
  obtain ⟨hsigned, hunsigned, -⟩ := ty.limits
  cases hs : ty.signed with
  | true =>
    obtain ⟨hmin⟩ := hsigned hs
    cases negative with
    | false =>
      change (m : Int) ≤ ty.max at hhigh
      omega
    | true =>
      change ty.min ≤ -m at hlow
      omega
  | false =>
    obtain ⟨hmin, hmax⟩ := hunsigned hs
    cases negative with
    | false => exact hmax ▸ hhigh
    | true => cases hs.symm.trans (hsign rfl)

/-- No step overflows, and the value is stored if the type holds it. -/
theorem store_eq {ty : IntegerType} {negative : Bool} {m : Nat} (hm : m ≤ ty.unsigned.max)
    (result : Int) :
    store ty negative m result =
      if (negative = true → ty.signed = true) ∧ ty.min ≤ signedValue negative m ∧
          signedValue negative m ≤ ty.max
      then some (true, signedValue negative m) else some (false, result) := by
  obtain ⟨hsigned⟩ := ty.limits
  cases hs : ty.signed with
  | true =>
    cases negative <;> simp only [store, IntegerType.checked, signedValue] <;> grind
  | false =>
    cases negative <;> simp only [store, IntegerType.checked, signedValue] <;> grind

/-- Exactly the integers of the type are parsed, each to its value; else nothing is stored. -/
theorem parseInteger_exact (ty : IntegerType) (text : Text) (result : Int) :
    (∀ n, parseInteger ty text result = some (true, n) ↔ IsInteger ty text n) ∧
    ((∀ n, ¬ IsInteger ty text n) → parseInteger ty text result = some (false, result)) := by
  cases hread : readMagnitude ty text with
  | none =>
    have hnot : ∀ n, ¬ IsInteger ty text n := by
      rintro n ⟨negative, m, htext, hsign, rfl, hlow, hhigh⟩
      have hm := magnitude_le hsign hlow hhigh
      rw [readMagnitude_iff.mpr ⟨htext, hm⟩] at hread
      cases hread
    rw [parseInteger, hread]
    exact ⟨fun n => iff_of_false (fun h => by cases h) (hnot n), fun _ => rfl⟩
  | some scanned =>
    obtain ⟨negative, m⟩ := scanned
    obtain ⟨htext, hm⟩ := readMagnitude_iff.mp hread
    have hinteger : ∀ n, IsInteger ty text n ↔ (negative = true → ty.signed = true) ∧
        n = signedValue negative m ∧ ty.min ≤ n ∧ n ≤ ty.max := by
      intro n
      constructor
      · rintro ⟨negative', m', htext', hsign, rfl, hlow, hhigh⟩
        have hm' := magnitude_le hsign hlow hhigh
        rw [readMagnitude_iff.mpr ⟨htext', hm'⟩] at hread
        cases hread
        exact ⟨hsign, rfl, hlow, hhigh⟩
      · exact fun h => ⟨negative, m, htext, h⟩
    simp only [parseInteger, hread, store_eq hm, hinteger]
    split
    · rename_i hfits
      constructor
      · intro n
        simp only [Option.some.injEq, Prod.mk.injEq, true_and]
        constructor
        · rintro rfl
          exact ⟨hfits.1, rfl, hfits.2⟩
        · exact fun h => h.2.1.symm
      · exact fun hnone => absurd ⟨hfits.1, rfl, hfits.2⟩ (hnone _)
    · rename_i hfits
      refine ⟨fun n => iff_of_false (fun h => by cases h) ?_, fun _ => rfl⟩
      rintro ⟨hsign, rfl, hrange⟩
      exact hfits ⟨hsign, hrange⟩

end JobYaml
