import OddBuilder.Ansi.Grid

/-!
# Character sets

The sets that a designator selects, and the translation of a character.
-/

namespace JobAnsi

/-- The byte that designates a set. -/
abbrev CharsetDesignator : Type := UInt8

namespace CharsetTranslator

def DEC_TECHNICAL : List (Nat × Nat) :=
  [(0x21, 0x23B7), (0x22, 0x250C), (0x23, 0x2500), (0x24, 0x2320), (0x25, 0x2321), (0x26, 0x2502),
   (0x27, 0x23A1), (0x28, 0x23A3), (0x29, 0x23A4), (0x2A, 0x23A6), (0x2B, 0x239B), (0x2C, 0x239D),
   (0x2D, 0x239E), (0x2E, 0x23A0), (0x2F, 0x23A8), (0x30, 0x23AC), (0x31, 0x23B2), (0x32, 0x23B3),
   (0x33, 0x2572), (0x34, 0x2571), (0x35, 0x231D), (0x36, 0x231F), (0x37, 0x27E9), (0x3C, 0x2264),
   (0x3D, 0x2260), (0x3E, 0x2265), (0x3F, 0x222B), (0x40, 0x2234), (0x41, 0x221D), (0x42, 0x221E),
   (0x43, 0x00F7), (0x44, 0x0394), (0x45, 0x2207), (0x46, 0x03A6), (0x47, 0x0393), (0x48, 0x223C),
   (0x49, 0x2243), (0x4A, 0x0398), (0x4B, 0x00D7), (0x4C, 0x039B), (0x4D, 0x21D4), (0x4E, 0x21D2),
   (0x4F, 0x2261), (0x50, 0x03A0), (0x51, 0x03A8), (0x52, 0x03A3), (0x54, 0x221A), (0x55, 0x03A9),
   (0x56, 0x039E), (0x57, 0x03A5), (0x58, 0x2282), (0x59, 0x2283), (0x5A, 0x2229), (0x5B, 0x222A),
   (0x5C, 0x2227), (0x5D, 0x2228), (0x5E, 0x00AC), (0x5F, 0x03B1), (0x60, 0x03B2), (0x61, 0x03C7),
   (0x62, 0x03B4), (0x63, 0x03B5), (0x64, 0x03C6), (0x65, 0x03B3), (0x66, 0x03B7), (0x67, 0x03B9),
   (0x68, 0x03B8), (0x69, 0x03BA), (0x6A, 0x03BB), (0x6C, 0x03BD), (0x6D, 0x2202), (0x6E, 0x03C0),
   (0x6F, 0x03C8), (0x70, 0x03C1), (0x71, 0x03C3), (0x72, 0x03C4), (0x74, 0x0192), (0x75, 0x03C9),
   (0x76, 0x03BE), (0x77, 0x03C5), (0x78, 0x03B6), (0x79, 0x2190), (0x7A, 0x2191), (0x7B, 0x2192),
   (0x7C, 0x2193)]

def DEC_SPECIAL_GRAPHICS : List (Nat × Nat) :=
  [(0x60, 0x25C6), (0x61, 0x2592), (0x62, 0x2409), (0x63, 0x240C), (0x64, 0x240D), (0x65, 0x240A),
   (0x66, 0x00B0), (0x67, 0x00B1), (0x68, 0x23BA), (0x69, 0x23BB), (0x6A, 0x2518), (0x6B, 0x2510),
   (0x6C, 0x250C), (0x6D, 0x2514), (0x6E, 0x253C), (0x6F, 0x23AF), (0x70, 0x23AF), (0x71, 0x2500),
   (0x72, 0x23AF), (0x73, 0x23AF), (0x74, 0x251C), (0x75, 0x2524), (0x76, 0x2534), (0x77, 0x252C),
   (0x78, 0x2502), (0x79, 0x2264), (0x7A, 0x2265), (0x7B, 0x03C0), (0x7C, 0x2260), (0x7D, 0x00A3),
   (0x30, 0x25AE), (0x7E, 0x00B7)]

def DEC_SUPPLEMENTAL : List (Nat × Nat) :=
  [(0x21, 0x00A1), (0x24, 0x00A4), (0x25, 0x00B5), (0x26, 0x00A7), (0x28, 0x00A9), (0x29, 0x00AE),
   (0x2A, 0x2122), (0x2B, 0x00B1), (0x2C, 0x00BC), (0x2D, 0x00BD), (0x2E, 0x00BE), (0x2F, 0x00F7),
   (0x3A, 0x2236), (0x3D, 0x2260), (0x3E, 0x2265), (0x3C, 0x2264), (0x3F, 0x00BF), (0x40, 0x20AC)]

end CharsetTranslator

/-- The set in use is `G0` throughout: nothing selects another. -/
structure CharsetTranslator where
  g0 : CharsetDesignator := 66
  g1 : CharsetDesignator := 66
  g2 : CharsetDesignator := 66
  g3 : CharsetDesignator := 66
  deriving DecidableEq

namespace CharsetTranslator

variable {designator : CharsetDesignator} {ch : Nat}

def selectCharset (set : Nat) (designator : CharsetDesignator) (charset : CharsetTranslator) :
    CharsetTranslator :=
  match set with
  | 0 => { charset with g0 := designator }
  | 1 => { charset with g1 := designator }
  | 2 => { charset with g2 := designator }
  | 3 => { charset with g3 := designator }
  | _ => charset

/-- The designators `0`, `<` and `>`; all others translate nothing. -/
def getMap (designator : CharsetDesignator) : List (Nat × Nat) :=
  if designator = 48 then DEC_SPECIAL_GRAPHICS
  else if designator = 60 then DEC_SUPPLEMENTAL
  else if designator = 62 then DEC_TECHNICAL
  else []

def applyCharset (charset : CharsetTranslator) (ch : Nat) : Nat :=
  ((getMap charset.g0).lookup ch).getD ch

/-- The sets translate characters of ASCII to others. -/
theorem getMap_ascii :
    ∀ entry ∈ getMap designator, entry.1 < 128 ∧ 128 ≤ entry.2 := by
  unfold getMap
  split_ifs
  · decide
  · decide
  · decide
  · simp

theorem lookup_getMap {out : Nat} (h : (getMap designator).lookup ch = some out) :
    (getMap designator).lookup out = none := by
  obtain ⟨front, back, hmap⟩ := List.lookup_eq_some_iff.1 h
  have hmem : (ch, out) ∈ getMap designator := by simp [hmap]
  have hout : ch < 128 ∧ 128 ≤ out := getMap_ascii _ hmem
  rw [List.lookup_eq_none_iff]
  intro entry hentry
  have hkey := getMap_ascii entry hentry
  exact bne_iff_ne.2 (show out ≠ entry.1 by omega)

theorem applyCharset_idem (charset : CharsetTranslator) (ch : Nat) :
    charset.applyCharset (charset.applyCharset ch) = charset.applyCharset ch := by
  unfold applyCharset
  cases h : (getMap charset.g0).lookup ch with
  | none => simp [h]
  | some out => simp [lookup_getMap h]

/-- What is printed stays printable. -/
theorem printable_applyCharset (charset : CharsetTranslator) (hch : 0x20 ≤ ch) :
    0x20 ≤ charset.applyCharset ch := by
  unfold applyCharset
  cases h : (getMap charset.g0).lookup ch with
  | none => exact hch
  | some out =>
    obtain ⟨front, back, hmap⟩ := List.lookup_eq_some_iff.1 h
    have hmem : (ch, out) ∈ getMap charset.g0 := by simp [hmap]
    have hout : ch < 128 ∧ 128 ≤ out := getMap_ascii _ hmem
    exact le_trans (by omega) hout.2

theorem getMap_space :
    ∀ entry ∈ getMap designator, entry.1 ≠ 0x20 := by
  unfold getMap
  split_ifs
  · decide
  · decide
  · decide
  · simp

/-- A blank is what a blank becomes, and nothing else becomes one. -/
theorem applyCharset_space (charset : CharsetTranslator) :
    charset.applyCharset ch = 0x20 ↔ ch = 0x20 := by
  unfold applyCharset
  cases h : (getMap charset.g0).lookup ch with
  | none => rfl
  | some out =>
    obtain ⟨front, back, hmap⟩ := List.lookup_eq_some_iff.1 h
    have hmem : (ch, out) ∈ getMap charset.g0 := by simp [hmap]
    have hout : ch < 128 ∧ 128 ≤ out := getMap_ascii _ hmem
    have hch : ch ≠ 0x20 := getMap_space _ hmem
    simp only [Option.getD_some]
    omega

end CharsetTranslator

end JobAnsi
