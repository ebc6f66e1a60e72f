import Mathlib.Data.List.TakeWhile
import Mathlib.Data.Nat.Digits.Lemmas
import OddBuilder.Json.Tokens

/-!
# Number and string kernels

`std::from_chars` and `std::to_chars` for the fixed-width integers, and the
decoding of escapes. A decoding that would read past its input or would not come
to its end has no answer; `some none` is the kernel's `false`.
-/

namespace JobJson

open List JsonChar

variable {c a b d : UInt8} {u : Nat}

inductive JsonWidth where
  | w8
  | w16
  | w32
  | w64
deriving DecidableEq

def JsonWidth.bits : JsonWidth → Nat
  | w8 => 8
  | w16 => 16
  | w32 => 32
  | w64 => 64

structure JsonInteger where
  signed : Bool
  width : JsonWidth
deriving DecidableEq

namespace JsonInteger

def minValue (k : JsonInteger) : Int := if k.signed then -2 ^ (k.width.bits - 1) else 0

def maxValue (k : JsonInteger) : Int :=
  if k.signed then 2 ^ (k.width.bits - 1) - 1 else 2 ^ k.width.bits - 1

def InRange (k : JsonInteger) (n : Int) : Prop := k.minValue ≤ n ∧ n ≤ k.maxValue

instance (k : JsonInteger) (n : Int) : Decidable (k.InRange n) :=
  inferInstanceAs (Decidable (k.minValue ≤ n ∧ n ≤ k.maxValue))

end JsonInteger

/-- The number that digits stand for. -/
def digitsValue (ds : Bytes) : Nat := ds.foldl (fun n d => n * 10 + (d.toNat - 48)) 0

def signedValue (negative : Bool) (ds : Bytes) : Int :=
  if negative then -(digitsValue ds : Int) else digitsValue ds

/-- `from_chars` behind the sign: as many digits as there are. The kernel wants them to be all of
the text. -/
def readDigits (k : JsonInteger) (negative : Bool) (value : Bytes) : Option Int :=
  let front := value.takeWhile isDigit
  if front = [] then none
  else if ¬ k.InRange (signedValue negative front) then none
  else if front.length ≠ value.length then none
  else some (signedValue negative front)

/-- Only signed types take a minus sign. -/
def parseInteger (k : JsonInteger) (value : Bytes) : Option Int :=
  if k.signed && value.head? == some minus then readDigits k true (value.drop 1)
  else readDigits k false value

/-- `to_chars` of a natural number. -/
def natChars (n : Nat) : Bytes :=
  if n = 0 then [zero] else (Nat.digits 10 n).reverse.map fun d => UInt8.ofNat (48 + d)

def toChars (n : Int) : Bytes := if n < 0 then minus :: natChars n.natAbs else natChars n.natAbs

/-- `decodeHex4`: the number and what follows the four digits. -/
def decodeHex4 : Bytes → Option (Nat × Bytes)
  | a :: b :: c :: d :: value =>
    if isHexDigit a && isHexDigit b && isHexDigit c && isHexDigit d then
      some (hexQuad a b c d, value)
    else none
  | _ => none

def appendUtf8 (codepoint : Nat) (result : Bytes) : Option Bytes :=
  if codepoint ≤ 0x7F then some (result ++ [UInt8.ofNat codepoint])
  else if codepoint ≤ 0x7FF then
    some (result ++
      [UInt8.ofNat (0xC0 ||| codepoint >>> 6), UInt8.ofNat (0x80 ||| codepoint &&& 0x3F)])
  else if 0xD800 ≤ codepoint && codepoint ≤ 0xDFFF then none
  else if codepoint ≤ 0xFFFF then
    some (result ++
      [UInt8.ofNat (0xE0 ||| codepoint >>> 12), UInt8.ofNat (0x80 ||| codepoint >>> 6 &&& 0x3F),
        UInt8.ofNat (0x80 ||| codepoint &&& 0x3F)])
  else if codepoint ≤ 0x10FFFF then
    some (result ++
      [UInt8.ofNat (0xF0 ||| codepoint >>> 18), UInt8.ofNat (0x80 ||| codepoint >>> 12 &&& 0x3F),
        UInt8.ofNat (0x80 ||| codepoint >>> 6 &&& 0x3F), UInt8.ofNat (0x80 ||| codepoint &&& 0x3F)])
  else none

/-- The code point behind the letter `u`, with its low surrogate where it needs one. -/
def decodeUnicode (value : Bytes) : Option (Option (Nat × Bytes)) :=
  match decodeHex4 value with
  | none => some none
  | some (codepoint, value) =>
    if isHighSurrogate codepoint then
      if value.length < 6 then some none
      else do
        let first ← value[0]?
        let second ← value[1]?
        if first ≠ escapeMark ∨ second ≠ letterU then some none
        else
          match decodeHex4 (value.drop 2) with
          | none => some none
          | some (low, value) =>
            if !isLowSurrogate low then some none
            else some (some (combineSurrogates codepoint low, value))
    else if isLowSurrogate codepoint then some none
    else some (some (codepoint, value))

def decodeLoop : Nat → Bytes → Bytes → Option (Option Bytes)
  | 0, _, _ => none
  | turns + 1, value, decoded =>
    match value with
    | [] => some (some decoded)
    | c :: value =>
      if c ≠ escapeMark then decodeLoop turns value (decoded ++ [c])
      else
        match value with
        | [] => some none
        | e :: value =>
          match shortEscape e with
          | some c => decodeLoop turns value (decoded ++ [c])
          | none =>
            if e ≠ letterU then some none
            else do
              match ← decodeUnicode value with
              | none => some none
              | some (codepoint, value) =>
                match appendUtf8 codepoint decoded with
                | none => some none
                | some decoded => decodeLoop turns value decoded

/-- `JsonEscapeKernel::decode`. -/
def decode (value : Bytes) : Option (Option Bytes) := decodeLoop (value.length + 1) value []

/-- `JsonStringKernel::content`: the token without its quotation marks. -/
def content (lex : JsonLex) : Bytes := (lex.view.drop 1).take (lex.view.length - 2)

/-- Digits with an optional minus sign. -/
def IsIntegerLiteral (t : Bytes) (negative : Bool) (ds : Bytes) : Prop :=
  t = (if negative then [minus] else []) ++ ds ∧ IsDigits ds

theorem readDigits_iff (k : JsonInteger) (negative : Bool) (ds : Bytes) (n : Int) :
    readDigits k negative ds = some n ↔
      IsDigits ds ∧ n = signedValue negative ds ∧ k.InRange n := by
  constructor
  · intro h
    simp only [readDigits] at h
    split at h
    · cases h
    rename_i hne
    split at h
    · cases h
    rename_i hrange
    split at h
    · cases h
    rename_i hlen
    obtain rfl := Option.some.inj h
    rw [not_not] at hrange hlen
    have hall := List.IsPrefix.eq_of_length (List.takeWhile_prefix isDigit) hlen
    have digits : ∀ c ∈ ds.takeWhile isDigit, isDigit c = true :=
      all_eq_true.mp all_takeWhile
    rw [hall] at hne hrange digits ⊢
    exact ⟨⟨hne, digits⟩, rfl, hrange⟩
  · rintro ⟨⟨hne, hall⟩, rfl, hrange⟩
    have htake : ds.takeWhile isDigit = ds := takeWhile_eq_self_iff.mpr hall
    simp [readDigits, htake, hne, hrange]

/-- An integer is read exactly from a literal without fraction and exponent that is in range;
unsigned types take no minus sign. -/
theorem parseInteger_iff (k : JsonInteger) (t : Bytes) (n : Int) :
    parseInteger k t = some n ↔
      ∃ negative ds, IsIntegerLiteral t negative ds ∧ n = signedValue negative ds ∧ k.InRange n ∧
        (negative = true → k.signed = true) := by
  constructor
  · intro h
    simp only [parseInteger] at h
    split at h
    · rename_i hneg
      obtain ⟨hsigned, hhead⟩ := Bool.and_eq_true_iff.mp hneg
      obtain ⟨hds, hn, hrange⟩ := (readDigits_iff _ _ _ _).mp h
      refine ⟨true, t.drop 1, ⟨?_, hds⟩, hn, hrange, fun _ => hsigned⟩
      cases t with
      | nil => simp at hhead
      | cons b t => simpa using hhead
    · obtain ⟨hds, hn, hrange⟩ := (readDigits_iff _ _ _ _).mp h
      exact ⟨false, t, ⟨rfl, hds⟩, hn, hrange, by simp⟩
  · rintro ⟨negative, ds, ⟨rfl, hds⟩, hn, hrange, hsigned⟩
    have hread := (readDigits_iff k negative ds n).mpr ⟨hds, hn, hrange⟩
    cases negative with
    | true => simpa [parseInteger, hsigned rfl] using hread
    | false =>
      have hminus : ds.head? ≠ some minus := by
        obtain ⟨hne, hall⟩ := hds
        cases ds with
        | nil => exact absurd rfl hne
        | cons d ds =>
          intro h
          exact isDigit_ne_minus (hall d (by simp)) (Option.some.inj h)
      simpa [parseInteger, hminus] using hread

def digitChar (d : Nat) : UInt8 := UInt8.ofNat (48 + d)

theorem digitChar_toNat {d : Nat} (h : d < 10) : (digitChar d).toNat = 48 + d := by
  exact Nat.mod_eq_of_lt (by omega)

theorem isDigit_digitChar {d : Nat} (h : d < 10) : isDigit (digitChar d) = true := by
  simp only [isDigit, Bool.and_eq_true, decide_eq_true_eq, UInt8.le_iff_toNat_le,
    digitChar_toNat h, UInt8.reduceToNat]
  omega

theorem isDigit19_digitChar {d : Nat} (h : d < 10) (hpos : d ≠ 0) :
    isDigit19 (digitChar d) = true := by
  simp only [isDigit19, Bool.and_eq_true, decide_eq_true_eq, UInt8.le_iff_toNat_le,
    digitChar_toNat h, UInt8.reduceToNat]
  omega

theorem digitsValue_chars (ds : List Nat) (hds : ∀ d ∈ ds, d < 10) :
    digitsValue (ds.reverse.map digitChar) = Nat.ofDigits 10 ds := by
  induction ds with
  | nil => rfl
  | cons d ds ih =>
    have tail := ih fun x hx => hds x (by simp [hx])
    have hd := digitChar_toNat (hds d (by simp))
    simp only [digitsValue] at tail
    simp only [digitsValue, reverse_cons, map_append, map_singleton,
      foldl_append, foldl_cons, foldl_nil, Nat.ofDigits_cons]
    omega

theorem natChars_pos {n : Nat} (h : n ≠ 0) : natChars n = (Nat.digits 10 n).reverse.map digitChar := by
  rw [natChars, if_neg h]
  rfl

theorem digitsValue_natChars (n : Nat) : digitsValue (natChars n) = n := by
  by_cases h : n = 0
  · subst h
    rfl
  · rw [natChars_pos h, digitsValue_chars _ fun d hd => Nat.digits_lt_base (by norm_num) hd,
      Nat.ofDigits_digits]

theorem natChars_isInt (n : Nat) : IsInt (natChars n) := by
  by_cases h : n = 0
  · subst h
    exact Or.inl rfl
  · have hne : Nat.digits 10 n ≠ [] := Nat.digits_ne_nil_iff_ne_zero.mpr h
    obtain ⟨front, last, hsplit⟩ := (eq_nil_or_concat (Nat.digits 10 n)).resolve_left hne
    rw [concat_eq_append] at hsplit
    have small : ∀ d ∈ front ++ [last], d < 10 := by
      intro d hd
      rw [← hsplit] at hd
      exact Nat.digits_lt_base (by norm_num) hd
    have hlast : last ≠ 0 := by
      have hnz := Nat.getLast_digit_ne_zero 10 h
      simpa [hsplit] using hnz
    refine Or.inr ⟨digitChar last, front.reverse.map digitChar, ?_, ?_, ?_⟩
    · rw [natChars_pos h, hsplit]
      simp
    · exact isDigit19_digitChar (small last (by simp)) hlast
    · intro c hc
      obtain ⟨d, hd, rfl⟩ := mem_map.mp hc
      exact isDigit_digitChar (small d (by simpa using Or.inl (mem_reverse.mp hd)))

theorem isDigits_zero : IsDigits [zero] :=
  ⟨by simp, forall_mem_singleton.mpr rfl⟩

theorem IsInt.isDigits {t : Bytes} (h : IsInt t) : IsDigits t := by
  rcases h with rfl | ⟨c, ds, rfl, hc, hds⟩
  · exact isDigits_zero
  · refine ⟨by simp, fun d hd => ?_⟩
    rcases mem_cons.mp hd with rfl | hd
    · obtain ⟨b, r, hcons, hb⟩ := isInt_head (Or.inr ⟨d, ds, rfl, hc, hds⟩)
      obtain ⟨rfl⟩ := List.cons.inj hcons
      exact hb
    · exact hds d hd

theorem toChars_isNumber (n : Int) : IsNumber (toChars n) := by
  have hint := natChars_isInt n.natAbs
  simp only [toChars]
  split
  · exact ⟨[minus], natChars n.natAbs, [], [], by simp, Or.inr rfl, hint, Or.inl rfl, Or.inl rfl⟩
  · exact ⟨[], natChars n.natAbs, [], [], by simp, Or.inl rfl, hint, Or.inl rfl, Or.inl rfl⟩

/-- What `to_chars` writes, the number kernel reads back. -/
theorem parseInteger_toChars {k : JsonInteger} {n : Int} (h : k.InRange n) :
    parseInteger k (toChars n) = some n := by
  have hds := (natChars_isInt n.natAbs).isDigits
  rw [parseInteger_iff]
  simp only [toChars]
  split
  · refine ⟨true, natChars n.natAbs, ⟨rfl, hds⟩, ?_, h, ?_⟩
    · simp only [signedValue, if_true, digitsValue_natChars]
      omega
    · intro _
      by_contra hunsigned
      have hmin := h.1
      rw [JsonInteger.minValue, if_neg hunsigned] at hmin
      omega
  · refine ⟨false, natChars n.natAbs, ⟨rfl, hds⟩, ?_, h, by simp⟩
    simp only [signedValue, Bool.false_eq_true, if_false, digitsValue_natChars]
    omega

theorem toChars_length {k : JsonInteger} {n : Int} (h : k.InRange n) : (toChars n).length ≤ 64 := by
  have hbound : n.natAbs < 10 ^ 20 := by
    obtain ⟨hmin, hmax⟩ := h
    rcases k with ⟨signed, width⟩
    cases signed <;> cases width <;>
      simp [JsonInteger.minValue, JsonInteger.maxValue, JsonWidth.bits] at hmin hmax <;> omega
  have hlen : (natChars n.natAbs).length ≤ 20 := by
    by_cases hzero : n.natAbs = 0
    · simp [natChars, hzero]
    · rw [natChars_pos hzero, length_map, length_reverse]
      exact (Nat.digits_length_le_iff (by norm_num) _).mpr hbound
  simp only [toChars]
  split
  · simp only [length_cons]
    omega
  · omega

theorem or_eq_add {high low : Nat} (i a : Nat) (h : high = 2 ^ i * a) (hlow : low < 2 ^ i) :
    high ||| low = high + low := by
  rw [h, Nat.two_pow_add_eq_or_of_lt hlow]

theorem and_low (u : Nat) : u &&& 0x3F = u % 64 := Nat.and_two_pow_sub_one_eq_mod u 6

theorem appendUtf8_eq (hu : u ≤ 0x10FFFF) (hsur : ¬ (0xD800 ≤ u ∧ u ≤ 0xDFFF)) (result : Bytes) :
    appendUtf8 u result = some (result ++ utf8 u) := by
  have tail : ∀ v, 0x80 ||| v &&& 0x3F = 0x80 + v % 64 := by
    intro v
    rw [and_low]
    exact or_eq_add 7 1 (by norm_num) (by omega)
  simp only [appendUtf8, utf8, tail, Nat.shiftRight_eq_div_pow]
  by_cases h₁ : u ≤ 0x7F
  · simp [h₁]
  by_cases h₂ : u ≤ 0x7FF
  · have lead : 0xC0 ||| u / 2 ^ 6 = 0xC0 + u / 64 := or_eq_add 6 3 (by norm_num) (by omega)
    simp only [h₁, h₂, if_false, if_true, lead]
  have hsur' : (decide (0xD800 ≤ u) && decide (u ≤ 0xDFFF)) = false := by simpa using hsur
  by_cases h₃ : u ≤ 0xFFFF
  · have lead : 0xE0 ||| u / 2 ^ 12 = 0xE0 + u / 4096 := or_eq_add 5 7 (by norm_num) (by omega)
    simp only [h₁, h₂, h₃, hsur', if_false, if_true, Bool.false_eq_true, lead]
  · have lead : 0xF0 ||| u / 2 ^ 18 = 0xF0 + u / 262144 := or_eq_add 4 15 (by norm_num) (by omega)
    simp only [h₁, h₂, h₃, hsur', hu, if_false, if_true, Bool.false_eq_true, lead]

theorem hexValue_lt (h : isHexDigit c = true) : hexValue c < 16 := by
  simp only [isHexDigit, isDigit, Bool.or_eq_true, Bool.and_eq_true, decide_eq_true_eq,
    UInt8.le_iff_toNat_le] at h
  simp only [hexValue, Bool.and_eq_true, decide_eq_true_eq, UInt8.le_iff_toNat_le]
  simp only [UInt8.reduceToNat] at h ⊢
  split_ifs <;> omega

theorem hexQuad_lt (ha : isHexDigit a = true) (hb : isHexDigit b = true) (hc : isHexDigit c = true)
    (hd : isHexDigit d = true) : hexQuad a b c d < 0x10000 := by
  have := hexValue_lt ha
  have := hexValue_lt hb
  have := hexValue_lt hc
  have := hexValue_lt hd
  simp only [hexQuad]
  omega

theorem decodeHex4_cons (ha : isHexDigit a = true) (hb : isHexDigit b = true)
    (hc : isHexDigit c = true) (hd : isHexDigit d = true) (value : Bytes) :
    decodeHex4 (a :: b :: c :: d :: value) = some (hexQuad a b c d, value) := by
  simp [decodeHex4, ha, hb, hc, hd]

/-- A high surrogate that is followed by anything but an escape of four digits is refused. -/
theorem decodeUnicode_lone {cs : List JsonChar} (hvalid : (unicode a b c d).Valid)
    (hcs : ∀ ch ∈ cs, ch.Valid) (hhigh : isHighSurrogate (hexQuad a b c d) = true)
    (hlone : ∀ e f g h cs', cs ≠ .unicode e f g h :: cs') :
    decodeUnicode (a :: b :: c :: d :: charsText cs) = some none := by
  obtain ⟨ha, hb, hc, hd⟩ := hvalid
  simp only [decodeUnicode, decodeHex4_cons ha hb hc hd, hhigh, if_true]
  split
  · rfl
  rename_i hlen
  cases cs with
  | nil => simp [charsText] at hlen
  | cons ch cs =>
    cases ch with
    | raw e =>
      have hback : e ≠ escapeMark := (hcs (.raw e) (by simp)).2.2
      rw [charsText_cons] at hlen ⊢
      cases htext : charsText cs with
      | nil => simp [htext, text] at hlen
      | cons e' text => simp [JsonChar.text, hback]
    | short e =>
      have hshort : (shortEscape e).isSome = true := hcs (.short e) (by simp)
      have hletter : e ≠ letterU := by
        rintro rfl
        simp [shortEscape, letterU] at hshort
      simp [charsText_cons, text, hletter]
    | unicode e f g h => exact absurd rfl (hlone e f g h cs)

theorem decodeUnicode_pair {e f g h : UInt8} (value : Bytes)
    (hvalid : (unicode a b c d).Valid) (hvalid' : (unicode e f g h).Valid)
    (hhigh : isHighSurrogate (hexQuad a b c d) = true) :
    decodeUnicode (a :: b :: c :: d :: escapeMark :: letterU :: e :: f :: g :: h :: value) =
      some (if isLowSurrogate (hexQuad e f g h) then
        some (combineSurrogates (hexQuad a b c d) (hexQuad e f g h), value) else none) := by
  obtain ⟨ha, hb, hc, hd⟩ := hvalid
  obtain ⟨he, hf, hg, hh⟩ := hvalid'
  have hdrop : (escapeMark :: letterU :: e :: f :: g :: h :: value).drop 2 =
      e :: f :: g :: h :: value := rfl
  simp only [decodeUnicode, decodeHex4_cons ha hb hc hd, hhigh, hdrop, decodeHex4_cons he hf hg hh]
  cases isLowSurrogate (hexQuad e f g h) <;> rfl

theorem combineSurrogates_range {high low : Nat} (hhigh : isHighSurrogate high = true)
    (hlow : isLowSurrogate low = true) :
    combineSurrogates high low ≤ 0x10FFFF ∧
      ¬ (0xD800 ≤ combineSurrogates high low ∧ combineSurrogates high low ≤ 0xDFFF) := by
  simp only [isHighSurrogate, isLowSurrogate, Bool.and_eq_true, decide_eq_true_eq] at hhigh hlow
  have hx : high - 0xD800 ≤ 0x3FF := Nat.sub_le_of_le_add (hhigh.2.trans (by norm_num))
  have hy : low - 0xDC00 ≤ 0x3FF := Nat.sub_le_of_le_add (hlow.2.trans (by norm_num))
  have lower : 0x10000 ≤ combineSurrogates high low :=
    (Nat.le_add_right _ _).trans (Nat.le_add_right _ _)
  refine ⟨?_, fun h => absurd (lower.trans h.2) (by norm_num)⟩
  exact Nat.add_le_add (Nat.add_le_add_left (Nat.mul_le_mul_right 1024 hx) _) hy

theorem not_surrogate (hhigh : isHighSurrogate u = false) (hlow : isLowSurrogate u = false) :
    ¬ (0xD800 ≤ u ∧ u ≤ 0xDFFF) := by
  rintro ⟨lower, upper⟩
  by_cases h : u ≤ 0xDBFF
  · simp [isHighSurrogate, lower, h] at hhigh
  · have h' : 0xDC00 ≤ u := Nat.lt_of_not_le h
    simp [isLowSurrogate, h', upper] at hlow

/-- One turn of the loop at an escape of four digits. -/
theorem decodeLoop_unicode {turns : Nat} {value rest decoded : Bytes}
    (hu : decodeUnicode value = some (some (u, rest)))
    (happend : appendUtf8 u decoded = some (decoded ++ utf8 u)) :
    decodeLoop (turns + 1) (escapeMark :: letterU :: value) decoded =
      decodeLoop turns rest (decoded ++ utf8 u) := by
  have hshort : shortEscape letterU = none := by decide
  simp [decodeLoop, hshort, hu, happend]

theorem decodeLoop_refused {turns : Nat} {value decoded : Bytes}
    (hu : decodeUnicode value = some none) :
    decodeLoop (turns + 1) (escapeMark :: letterU :: value) decoded = some none := by
  have hshort : shortEscape letterU = none := by decide
  simp [decodeLoop, hshort, hu]

theorem decodedText_single (cs : List JsonChar) (h : isHighSurrogate (hexQuad a b c d) = false) :
    decodedText (.unicode a b c d :: cs) =
      if isLowSurrogate (hexQuad a b c d) then none
      else (decodedText cs).map (utf8 (hexQuad a b c d) ++ ·) := by
  rw [decodedText.eq_def]
  simp [h]

theorem decodedText_pair {e f g h : UInt8} (cs : List JsonChar)
    (hhigh : isHighSurrogate (hexQuad a b c d) = true)
    (hlow : isLowSurrogate (hexQuad e f g h) = true) :
    decodedText (.unicode a b c d :: .unicode e f g h :: cs) =
      (decodedText cs).map
        (utf8 (combineSurrogates (hexQuad a b c d) (hexQuad e f g h)) ++ ·) := by
  rw [decodedText.eq_def]
  simp [hhigh, hlow]

/-- The kernel decodes a row of characters exactly when its surrogates are paired. -/
theorem decodeLoop_eq (turns : Nat) :
    ∀ (cs : List JsonChar) (decoded : Bytes), (∀ ch ∈ cs, ch.Valid) →
      (charsText cs).length < turns →
      decodeLoop turns (charsText cs) decoded = some ((decodedText cs).map (decoded ++ ·)) := by
  induction turns with
  | zero =>
    intro cs decoded _ h
    omega
  | succ turns ih =>
    intro cs decoded hcs hturns
    cases cs with
    | nil => simp [charsText, decodeLoop, decodedText]
    | cons ch cs =>
      have hvalid := hcs ch (by simp)
      have htail : ∀ ch ∈ cs, ch.Valid := fun x hx => hcs x (by simp [hx])
      rw [charsText_cons] at hturns ⊢
      cases ch with
      | raw c =>
        have further := ih cs (decoded ++ [c]) htail (by simp [text] at hturns; omega)
        simp [text, decodeLoop, hvalid.2.2, further, decodedText, Function.comp_def]
      | short c =>
        obtain ⟨d, hd⟩ := Option.isSome_iff_exists.mp hvalid
        have further := ih cs (decoded ++ [d]) htail (by simp [text] at hturns; omega)
        simp [text, decodeLoop, hd, further, decodedText, Function.comp_def]
      | unicode a b c d =>
        simp only [text, cons_append, nil_append]
        by_cases hhigh : isHighSurrogate (hexQuad a b c d) = true
        · by_cases hpair : ∃ e f g h cs', cs = .unicode e f g h :: cs'
          · obtain ⟨e, f, g, h, cs', rfl⟩ := hpair
            have hunicode := decodeUnicode_pair (charsText cs') hvalid
              (htail (.unicode e f g h) (by simp)) hhigh
            rw [charsText_cons]
            simp only [text, cons_append, nil_append]
            by_cases hlow : isLowSurrogate (hexQuad e f g h) = true
            · obtain ⟨hmax, hsur⟩ := combineSurrogates_range hhigh hlow
              rw [if_pos hlow] at hunicode
              have happend := appendUtf8_eq hmax hsur decoded
              have further := ih cs'
                (decoded ++ utf8 (combineSurrogates (hexQuad a b c d) (hexQuad e f g h)))
                (fun x hx => htail x (by simp [hx]))
                (by simp [charsText_cons, text] at hturns; omega)
              rw [decodeLoop_unicode hunicode happend, further, decodedText_pair cs' hhigh hlow]
              simp [Function.comp_def]
            · rw [if_neg hlow] at hunicode
              rw [decodeLoop_refused hunicode]
              simp [hlow, decodedText, hhigh]
          · have hlone : ∀ e f g h cs', cs ≠ .unicode e f g h :: cs' :=
              fun e f g h cs' heq => hpair ⟨e, f, g, h, cs', heq⟩
            rw [decodeLoop_refused (decodeUnicode_lone hvalid htail hhigh hlone),
              decodedText.eq_def]
            simp only [hhigh]
            rfl
        · rw [Bool.not_eq_true] at hhigh
          rw [decodedText_single cs hhigh]
          obtain ⟨ha, hb, hc, hd⟩ := hvalid
          by_cases hlow : isLowSurrogate (hexQuad a b c d) = true
          · rw [decodeLoop_refused (by
              simp [decodeUnicode, decodeHex4_cons ha hb hc hd, hhigh, hlow])]
            simp [hlow]
          · have hunicode : decodeUnicode (a :: b :: c :: d :: charsText cs) =
                some (some (hexQuad a b c d, charsText cs)) := by
              simp [decodeUnicode, decodeHex4_cons ha hb hc hd, hhigh, hlow]
            have hquad := hexQuad_lt ha hb hc hd
            have happend := appendUtf8_eq (hquad.le.trans (by norm_num))
              (not_surrogate hhigh (by simpa using hlow)) decoded
            have further := ih cs (decoded ++ utf8 (hexQuad a b c d)) htail
              (by simp [text] at hturns; omega)
            rw [decodeLoop_unicode hunicode happend, further]
            simp [hlow, Function.comp_def]

theorem decode_eq {cs : List JsonChar} (hcs : ∀ ch ∈ cs, ch.Valid) :
    decode (charsText cs) = some (decodedText cs) := by
  rw [decode, decodeLoop_eq _ cs [] hcs (by omega)]
  simp

end JobJson
