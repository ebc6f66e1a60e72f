import OddBuilder.Token.Vocab

/-!
# Byte fallback

The spelling `<0xNN>` under which a vocabulary lists a byte that has no token of
its own.
-/

namespace JobTokenizer

namespace ByteFallback

variable {text : Text}

def isHexChar (c : UInt8) : Bool := (48 ≤ c && c ≤ 57) || (65 ≤ c && c ≤ 70) || (97 ≤ c && c ≤ 102)

/-- `hexToNibble` after its cast to a byte; a character that is no digit answers `-1`. -/
def hexToNibble (c : UInt8) : UInt8 :=
  if 48 ≤ c && c ≤ 57 then c - 48
  else if 65 ≤ c && c ≤ 70 then c - 65 + 10
  else if 97 ≤ c && c ≤ 102 then c - 97 + 10
  else 255

def isByteToken : Text → Bool
  | [c0, c1, c2, high, low, c5] =>
    c0 == 60 && c1 == 48 && c2 == 120 && isHexChar high && isHexChar low && c5 == 62
  | _ => false

def parseByteToken (text : Text) : Option UInt8 :=
  if isByteToken text then
    some ((hexToNibble (text.getD 3 0) <<< 4) ||| hexToNibble (text.getD 4 0))
  else none

def hexDigits : Text := [48, 49, 50, 51, 52, 53, 54, 55, 56, 57, 65, 66, 67, 68, 69, 70]

/-- The entry of the table of spellings. -/
def byteToStringView (byte : UInt8) : Text :=
  [60, 48, 120, hexDigits.getD ((byte >>> 4) &&& 15).toNat 0, hexDigits.getD (byte &&& 15).toNat 0, 62]

theorem isByteToken_iff :
    isByteToken text = true ↔ ∃ high low, text = [60, 48, 120, high, low, 62] ∧
      isHexChar high = true ∧ isHexChar low = true := by
  constructor
  · intro h
    unfold isByteToken at h
    split at h
    · rename_i c0 c1 c2 high low c5
      simp only [Bool.and_eq_true, beq_iff_eq] at h
      obtain ⟨⟨⟨⟨⟨rfl, rfl⟩, rfl⟩, hhigh⟩, hlow⟩, rfl⟩ := h
      exact ⟨high, low, rfl, hhigh, hlow⟩
    · cases h
  · rintro ⟨high, low, hhigh, hlow⟩
    simp [isByteToken, hhigh, hlow]

theorem isByteToken_length (h : isByteToken text = true) : text.length = 6 := by
  obtain ⟨high, low, rfl, -⟩ := isByteToken_iff.mp h
  rfl

theorem parseByteToken_eq_none (h : isByteToken text = false) : parseByteToken text = none := by
  simp [parseByteToken, h]

theorem parseByteToken_eq_some (h : isByteToken text = true) :
    ∃ byte, parseByteToken text = some byte := by
  simp only [parseByteToken, h]
  exact ⟨_, rfl⟩

set_option maxRecDepth 4096 in
/-- Every byte is read back from its spelling. -/
theorem parseByteToken_byteToStringView (byte : UInt8) :
    parseByteToken (byteToStringView byte) = some byte := by
  have hall : (List.range 256).all (fun n =>
      parseByteToken (byteToStringView (UInt8.ofNat n)) == some (UInt8.ofNat n)) = true := by
    decide
  have hbyte := List.all_eq_true.mp hall byte.toNat (List.mem_range.mpr byte.toNat_lt)
  rwa [UInt8.ofNat_toNat, beq_iff_eq] at hbyte

theorem isByteToken_byteToStringView (byte : UInt8) : isByteToken (byteToStringView byte) = true := by
  by_contra h
  have hnone := parseByteToken_eq_none (Bool.not_eq_true _ ▸ h)
  rw [parseByteToken_byteToStringView] at hnone
  cases hnone

set_option maxRecDepth 4096 in
theorem byteToStringView_count (byte : UInt8) : (byteToStringView byte).count 60 = 1 := by
  have hall : (List.range 256).all (fun n =>
      (byteToStringView (UInt8.ofNat n)).count 60 == 1) = true := by
    decide
  have hbyte := List.all_eq_true.mp hall byte.toNat (List.mem_range.mpr byte.toNat_lt)
  rwa [UInt8.ofNat_toNat, beq_iff_eq] at hbyte

theorem isByteToken_count (h : isByteToken text = true) : text.count 60 = 1 := by
  obtain ⟨high, low, rfl, hhigh, hlow⟩ := isByteToken_iff.mp h
  have hdigit : ∀ c, isHexChar c = true → c ≠ 60 := by
    rintro c hc rfl
    revert hc
    decide
  simp [hdigit high hhigh, hdigit low hlow]

end ByteFallback

end JobTokenizer
