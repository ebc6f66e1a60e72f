import OddBuilder.Token.Runtime

/-!
# UTF-8 and the space marker

`UnicodeNormalizer` reads code points from a byte string, writes them, and replaces
spaces by a marker of three bytes. A code point is a number.
-/

namespace JobTokenizer

open List

namespace UnicodeNormalizer

variable {text : Text} {c offset offset' outCodepoint codepoint : Nat}

/-- The byte at a position of the text. -/
def byteAt (text : Text) (i : Nat) : UInt8 := text.getD i 0

def isTail (byte : UInt8) : Bool := byte &&& 0xC0 == 0x80

/-- Whether a code point was read, the offset and the code point that are left behind. -/
def nextCodepoint (text : Text) (offset outCodepoint : Nat) : Bool × Nat × Nat :=
  let length := text.length
  let refused := (false, offset, outCodepoint)
  if length ≤ offset then refused
  else
    let b0 := byteAt text offset
    if b0 ≤ 0x7F then (true, offset + 1, b0.toNat)
    else if 0xC2 ≤ b0 && b0 ≤ 0xDF then
      if length ≤ offset + 1 then refused
      else
        let b1 := byteAt text (offset + 1)
        if !isTail b1 then refused
        else (true, offset + 2, ((b0 &&& 0x1F).toNat <<< 6) ||| (b1 &&& 0x3F).toNat)
    else if 0xE0 ≤ b0 && b0 ≤ 0xEF then
      if length ≤ offset + 2 then refused
      else
        let b1 := byteAt text (offset + 1)
        let b2 := byteAt text (offset + 2)
        if !isTail b1 || !isTail b2 then refused
        else if b0 == 0xE0 && b1 < 0xA0 then refused
        else if b0 == 0xED && b1 > 0x9F then refused
        else
          (true, offset + 3,
            ((b0 &&& 0x0F).toNat <<< 12) ||| ((b1 &&& 0x3F).toNat <<< 6) ||| (b2 &&& 0x3F).toNat)
    else if 0xF0 ≤ b0 && b0 ≤ 0xF4 then
      if length ≤ offset + 3 then refused
      else
        let b1 := byteAt text (offset + 1)
        let b2 := byteAt text (offset + 2)
        let b3 := byteAt text (offset + 3)
        if !isTail b1 || !isTail b2 || !isTail b3 then refused
        else if b0 == 0xF0 && b1 < 0x90 then refused
        else if b0 == 0xF4 && b1 > 0x8F then refused
        else
          (true, offset + 4,
            ((b0 &&& 0x07).toNat <<< 18) ||| ((b1 &&& 0x3F).toNat <<< 12) |||
              ((b2 &&& 0x3F).toNat <<< 6) ||| (b3 &&& 0x3F).toNat)
    else refused

/-- What is written to the buffer; the count returned is its length. -/
def encodeCodepoint (codepoint : Nat) : Text :=
  if 0xD800 ≤ codepoint && codepoint ≤ 0xDFFF then []
  else if codepoint ≤ 0x7F then [UInt8.ofNat codepoint]
  else if codepoint ≤ 0x7FF then
    [UInt8.ofNat (0xC0 ||| (codepoint >>> 6)), UInt8.ofNat (0x80 ||| (codepoint &&& 0x3F))]
  else if codepoint ≤ 0xFFFF then
    [UInt8.ofNat (0xE0 ||| (codepoint >>> 12)), UInt8.ofNat (0x80 ||| ((codepoint >>> 6) &&& 0x3F)),
      UInt8.ofNat (0x80 ||| (codepoint &&& 0x3F))]
  else if codepoint ≤ 0x10FFFF then
    [UInt8.ofNat (0xF0 ||| (codepoint >>> 18)), UInt8.ofNat (0x80 ||| ((codepoint >>> 12) &&& 0x3F)),
      UInt8.ofNat (0x80 ||| ((codepoint >>> 6) &&& 0x3F)), UInt8.ofNat (0x80 ||| (codepoint &&& 0x3F))]
  else []

/-- A Unicode scalar value. -/
def Scalar (codepoint : Nat) : Prop :=
  codepoint < 0xD800 ∨ 0xDFFF < codepoint ∧ codepoint ≤ 0x10FFFF

instance (codepoint : Nat) : Decidable (Scalar codepoint) := by
  unfold Scalar
  infer_instance

theorem toNat_and_mask (b mask : UInt8) {i : Nat} (h : mask.toNat = 2 ^ i - 1) :
    (b &&& mask).toNat = b.toNat % 2 ^ i := by
  rw [UInt8.toNat_and, h, Nat.and_two_pow_sub_one_eq_mod]

theorem toNat_and_3F (b : UInt8) : (b &&& 0x3F).toNat = b.toNat % 64 := @toNat_and_mask b 0x3F 6 rfl

theorem shift_or (high : Nat) {low i : Nat} (h : low < 2 ^ i) :
    high <<< i ||| low = high * 2 ^ i + low := by
  rw [← Nat.shiftLeft_add_eq_or_of_lt h, Nat.shiftLeft_eq]

theorem bits_two (b0 b1 : UInt8) :
    (b0 &&& 0x1F).toNat <<< 6 ||| (b1 &&& 0x3F).toNat = b0.toNat % 32 * 64 + b1.toNat % 64 := by
  rw [toNat_and_3F, @toNat_and_mask b0 0x1F 5 rfl]
  exact @shift_or _ _ 6 (by omega)

theorem bits_tails (b1 b2 : UInt8) :
    (b1 &&& 0x3F).toNat <<< 6 ||| (b2 &&& 0x3F).toNat = b1.toNat % 64 * 64 + b2.toNat % 64 := by
  rw [toNat_and_3F, toNat_and_3F]
  exact @shift_or _ _ 6 (by omega)

theorem bits_three (b0 b1 b2 : UInt8) :
    (b0 &&& 0x0F).toNat <<< 12 ||| (b1 &&& 0x3F).toNat <<< 6 ||| (b2 &&& 0x3F).toNat =
      b0.toNat % 16 * 4096 + (b1.toNat % 64 * 64 + b2.toNat % 64) := by
  rw [Nat.or_assoc, bits_tails, @toNat_and_mask b0 0x0F 4 rfl]
  exact @shift_or _ _ 12 (by omega)

theorem bits_four (b0 b1 b2 b3 : UInt8) :
    (b0 &&& 0x07).toNat <<< 18 ||| (b1 &&& 0x3F).toNat <<< 12 ||| (b2 &&& 0x3F).toNat <<< 6 |||
        (b3 &&& 0x3F).toNat =
      b0.toNat % 8 * 262144 + (b1.toNat % 64 * 4096 + (b2.toNat % 64 * 64 + b3.toNat % 64)) := by
  rw [Nat.or_assoc, Nat.or_assoc, bits_tails, toNat_and_3F b1, @toNat_and_mask b0 0x07 3 rfl,
    @shift_or (b1.toNat % 64) _ 12 (by omega)]
  exact @shift_or _ _ 18 (by omega)

theorem isTail_iff {b : UInt8} : isTail b = true ↔ b.toNat / 64 = 2 := by
  have hall : ∀ n < 256, isTail (UInt8.ofNat n) = decide (n / 64 = 2) := by
    set_option maxRecDepth 4096 in decide
  have hb := hall b.toNat b.toNat_lt
  rw [UInt8.ofNat_toNat] at hb
  rw [hb, decide_eq_true_eq]

/-- A byte made of a mark and of the bits below it. -/
theorem toNat_mark {high low i : Nat} (hlow : low < 2 ^ i) (hhigh : 2 ^ i * high + low < 256) :
    (UInt8.ofNat (2 ^ i * high ||| low)).toNat = 2 ^ i * high + low := by
  rw [← Nat.two_pow_add_eq_or_of_lt hlow, UInt8.toNat_ofNat', Nat.mod_eq_of_lt hhigh]

theorem ofNat_mark {b : UInt8} {high low i : Nat} (hlow : low < 2 ^ i)
    (hb : b.toNat = 2 ^ i * high + low) : UInt8.ofNat (2 ^ i * high ||| low) = b := by
  have hlt := b.toNat_lt
  exact UInt8.toNat_inj.mp ((toNat_mark hlow (by omega)).trans hb.symm)

/-- The bytes of one code point. -/
inductive Block : Text → Nat → Prop
  | one {b0 : UInt8} (lead : b0.toNat ≤ 0x7F) : Block [b0] b0.toNat
  | two {b0 b1 : UInt8} (lead : 0xC2 ≤ b0.toNat ∧ b0.toNat ≤ 0xDF) (tail : b1.toNat / 64 = 2) :
      Block [b0, b1] (b0.toNat % 32 * 64 + b1.toNat % 64)
  | three {b0 b1 b2 : UInt8} (lead : 0xE0 ≤ b0.toNat ∧ b0.toNat ≤ 0xEF)
      (tails : b1.toNat / 64 = 2 ∧ b2.toNat / 64 = 2)
      (overlong : b0.toNat = 0xE0 → 0xA0 ≤ b1.toNat)
      (surrogate : b0.toNat = 0xED → b1.toNat ≤ 0x9F) :
      Block [b0, b1, b2] (b0.toNat % 16 * 4096 + (b1.toNat % 64 * 64 + b2.toNat % 64))
  | four {b0 b1 b2 b3 : UInt8} (lead : 0xF0 ≤ b0.toNat ∧ b0.toNat ≤ 0xF4)
      (tails : b1.toNat / 64 = 2 ∧ b2.toNat / 64 = 2 ∧ b3.toNat / 64 = 2)
      (overlong : b0.toNat = 0xF0 → 0x90 ≤ b1.toNat)
      (range : b0.toNat = 0xF4 → b1.toNat ≤ 0x8F) :
      Block [b0, b1, b2, b3]
        (b0.toNat % 8 * 262144 + (b1.toNat % 64 * 4096 + (b2.toNat % 64 * 64 + b3.toNat % 64)))

theorem Block.ne_nil {s : Text} (h : Block s c) : s ≠ [] := by
  cases h <;> exact cons_ne_nil _ _

theorem encodeCodepoint_two {c : Nat} (hlow : 0x7F < c) (hhigh : c ≤ 0x7FF) :
    encodeCodepoint c = [UInt8.ofNat (2 ^ 6 * 3 ||| c / 64), UInt8.ofNat (2 ^ 6 * 2 ||| c % 64)] := by
  have hsurrogate : ¬ 0xD800 ≤ c := by omega
  simp only [encodeCodepoint, hsurrogate, Nat.not_le.mpr hlow, hhigh, Nat.shiftRight_eq_div_pow,
    Nat.and_two_pow_sub_one_eq_mod c 6]
  rfl

theorem encodeCodepoint_three (hlow : 0x7FF < c) (hhigh : c ≤ 0xFFFF) (h : Scalar c) :
    encodeCodepoint c = [UInt8.ofNat (2 ^ 5 * 7 ||| c / 4096),
      UInt8.ofNat (2 ^ 6 * 2 ||| c / 64 % 64), UInt8.ofNat (2 ^ 6 * 2 ||| c % 64)] := by
  have hsurrogate : ¬ (0xD800 ≤ c ∧ c ≤ 0xDFFF) := by
    unfold Scalar at h
    omega
  simp only [encodeCodepoint, Bool.and_eq_true, decide_eq_true_eq, hsurrogate, Nat.not_le.mpr hlow,
    show ¬ c ≤ 0x7F by omega, hhigh, Nat.shiftRight_eq_div_pow,
    Nat.and_two_pow_sub_one_eq_mod _ 6]
  rfl

theorem encodeCodepoint_four {c : Nat} (hlow : 0xFFFF < c) (hhigh : c ≤ 0x10FFFF) :
    encodeCodepoint c = [UInt8.ofNat (2 ^ 4 * 15 ||| c / 262144),
      UInt8.ofNat (2 ^ 6 * 2 ||| c / 4096 % 64), UInt8.ofNat (2 ^ 6 * 2 ||| c / 64 % 64),
      UInt8.ofNat (2 ^ 6 * 2 ||| c % 64)] := by
  have hsurrogate : ¬ (0xD800 ≤ c ∧ c ≤ 0xDFFF) := by omega
  simp only [encodeCodepoint, Bool.and_eq_true, decide_eq_true_eq, hsurrogate, Nat.not_le.mpr hlow,
    show ¬ c ≤ 0x7F by omega, show ¬ c ≤ 0x7FF by omega, hhigh, Nat.shiftRight_eq_div_pow, Nat.and_two_pow_sub_one_eq_mod _ 6]
  rfl

/-- A block is what `encodeCodepoint` writes for its code point. -/
theorem Block.encode {s : Text} {c : Nat} (h : Block s c) : Scalar c ∧ encodeCodepoint c = s := by
  cases h with
  | @one b0 lead =>
    refine ⟨Or.inl (by omega), ?_⟩
    rw [encodeCodepoint, if_neg (by simp; omega), if_pos lead, UInt8.ofNat_toNat]
  | @two b0 b1 lead tail =>
    refine ⟨Or.inl (by omega), ?_⟩
    rw [encodeCodepoint_two (by omega) (by omega), @ofNat_mark b0 _ _ _ (by omega) (by omega),
      @ofNat_mark b1 _ _ _ (by omega) (by omega)]
  | @three b0 b1 b2 lead tails overlong surrogate =>
    have hscalar : Scalar (b0.toNat % 16 * 4096 + (b1.toNat % 64 * 64 + b2.toNat % 64)) := by
      unfold Scalar
      omega
    refine ⟨hscalar, ?_⟩
    rw [encodeCodepoint_three (by omega) (by omega) hscalar,
      @ofNat_mark b0 _ _ _ (by omega) (by omega), @ofNat_mark b1 _ _ _ (by omega) (by omega),
      @ofNat_mark b2 _ _ _ (by omega) (by omega)]
  | @four b0 b1 b2 b3 lead tails overlong range =>
    refine ⟨Or.inr (by omega), ?_⟩
    rw [encodeCodepoint_four (by omega) (by omega), @ofNat_mark b0 _ _ _ (by omega) (by omega),
      @ofNat_mark b1 _ _ _ (by omega) (by omega), @ofNat_mark b2 _ _ _ (by omega) (by omega),
      @ofNat_mark b3 _ _ _ (by omega) (by omega)]

theorem Scalar.block (h : Scalar c) : Block (encodeCodepoint c) c := by
  have hle : c ≤ 0x10FFFF := by
    unfold Scalar at h
    omega
  by_cases h1 : c ≤ 0x7F
  · have hb : (UInt8.ofNat c).toNat = c := by rw [UInt8.toNat_ofNat', Nat.mod_eq_of_lt (by omega)]
    have hblock := @Block.one (UInt8.ofNat c)
    rw [hb] at hblock
    rw [encodeCodepoint, if_neg (by simp; omega), if_pos h1]
    exact hblock h1
  by_cases h2 : c ≤ 0x7FF
  · rw [encodeCodepoint_two (by omega) h2]
    have hblock := @Block.two (UInt8.ofNat (2 ^ 6 * 3 ||| c / 64))
      (UInt8.ofNat (2 ^ 6 * 2 ||| c % 64))
    rw [toNat_mark (by omega) (by omega), toNat_mark (by omega) (by omega)] at hblock
    convert hblock (by omega) (by omega) using 1
    omega
  by_cases h3 : c ≤ 0xFFFF
  · rw [encodeCodepoint_three (by omega) h3 h]
    have hblock := @Block.three (UInt8.ofNat (2 ^ 5 * 7 ||| c / 4096))
      (UInt8.ofNat (2 ^ 6 * 2 ||| c / 64 % 64)) (UInt8.ofNat (2 ^ 6 * 2 ||| c % 64))
    rw [toNat_mark (by omega) (by omega), toNat_mark (by omega) (by omega),
      toNat_mark (by omega) (by omega)] at hblock
    unfold Scalar at h
    convert hblock (by omega) (by omega) (by omega) (by omega) using 1
    omega
  · rw [encodeCodepoint_four (by omega) hle]
    have hblock := @Block.four (UInt8.ofNat (2 ^ 4 * 15 ||| c / 262144))
      (UInt8.ofNat (2 ^ 6 * 2 ||| c / 4096 % 64)) (UInt8.ofNat (2 ^ 6 * 2 ||| c / 64 % 64))
      (UInt8.ofNat (2 ^ 6 * 2 ||| c % 64))
    rw [toNat_mark (by omega) (by omega), toNat_mark (by omega) (by omega),
      toNat_mark (by omega) (by omega), toNat_mark (by omega) (by omega)] at hblock
    convert hblock (by omega) (by omega) (by omega) (by omega) using 1
    omega

theorem byteAt_drop (text : Text) (offset i : Nat) :
    byteAt (text.drop offset) i = byteAt text (offset + i) := by
  rw [byteAt, byteAt, getD_eq_getElem?_getD, List.getElem?_drop, ← getD_eq_getElem?_getD]

/-- Reading from an offset is reading what is left of the text. -/
theorem nextCodepoint_drop (text : Text) (offset outCodepoint : Nat) :
    nextCodepoint text offset outCodepoint =
      Prod.map id (Prod.map (offset + ·) id) (nextCodepoint (text.drop offset) 0 outCodepoint) := by
  have hle (i : Nat) : text.length - offset ≤ i ↔ text.length ≤ offset + i := by omega
  unfold nextCodepoint
  simp [byteAt_drop, hle, apply_ite (Prod.map id (Prod.map (offset + ·) id))]

theorem nextCodepoint_block {s : Text} (h : Block s c) (rest : Text) (outCodepoint : Nat) :
    nextCodepoint (s ++ rest) 0 outCodepoint = (true, s.length, c) := by
  cases h with
  | @one b0 lead =>
    have hlead : b0 ≤ 0x7F := lead
    simp [nextCodepoint, byteAt, hlead]
  | @two b0 b1 lead tail =>
    simp only [nextCodepoint, byteAt, cons_append, length_cons, getD_cons_zero,
      getD_cons_succ, UInt8.le_iff_toNat_le, isTail_iff.mpr tail, Bool.and_eq_true,
      decide_eq_true_eq, bits_two, UInt8.reduceToNat]
    rw [if_neg (by omega), if_neg (by omega), if_pos (by omega)]
    rfl
  | @three b0 b1 b2 lead tails overlong surrogate =>
    simp only [nextCodepoint, byteAt, cons_append, length_cons, getD_cons_zero,
      getD_cons_succ, UInt8.le_iff_toNat_le, UInt8.lt_iff_toNat_lt,
      isTail_iff.mpr tails.1, isTail_iff.mpr tails.2, Bool.and_eq_true, decide_eq_true_eq, Bool.not_true,
      Bool.or_self, Bool.false_eq_true, if_false, beq_iff_eq, ← UInt8.toNat_inj, bits_three,
      UInt8.reduceToNat]
    rw [if_neg (by omega), if_neg (by omega), if_neg (by omega), if_pos (by omega), if_neg (by omega),
      if_neg (by omega), if_neg (by omega)]
    rfl
  | @four b0 b1 b2 b3 lead tails overlong range =>
    simp only [nextCodepoint, byteAt, cons_append, length_cons, getD_cons_zero,
      getD_cons_succ, UInt8.le_iff_toNat_le, UInt8.lt_iff_toNat_lt,
      isTail_iff.mpr tails.1, isTail_iff.mpr tails.2.1, isTail_iff.mpr tails.2.2, Bool.and_eq_true,
      decide_eq_true_eq, Bool.not_true, Bool.or_self, Bool.false_eq_true, if_false, beq_iff_eq,
      ← UInt8.toNat_inj, bits_four, UInt8.reduceToNat]
    rw [if_neg (by omega), if_neg (by omega), if_neg (by omega), if_neg (by omega), if_pos (by omega),
      if_neg (by omega), if_neg (by omega), if_neg (by omega)]
    rfl

/-- What comes of reading the front of a text: nothing, or the code point of a block there. -/
def Reads (text : Text) (outCodepoint : Nat) (result : Bool × Nat × Nat) : Prop :=
  result = (false, 0, outCodepoint) ∨
    ∃ s rest c, text = s ++ rest ∧ Block s c ∧ result = (true, s.length, c)

theorem nextCodepoint_reads (text : Text) (outCodepoint : Nat) :
    Reads text outCodepoint (nextCodepoint text 0 outCodepoint) := by
  simp only [nextCodepoint, UInt8.lt_iff_toNat_lt, Bool.and_eq_true,
    Bool.or_eq_true, Bool.not_eq_true', ← Bool.not_eq_true, isTail_iff, decide_eq_true_eq, beq_iff_eq,
    ← UInt8.toNat_inj, bits_two, bits_three, bits_four, ite_not]
  refine iteInduction (fun _ => Or.inl rfl) fun h0 => ?_
  refine iteInduction (fun lead => ?_) fun _ => ?_
  · obtain ⟨b0, rest, rfl⟩ := exists_cons_of_length_pos (Nat.not_le.mp h0)
    exact Or.inr ⟨[b0], rest, _, rfl, .one lead, rfl⟩
  refine iteInduction (fun lead => ?_) fun _ => ?_
  · refine iteInduction (fun _ => Or.inl rfl) fun h1 => ?_
    refine iteInduction (fun tail => ?_) fun _ => Or.inl rfl
    obtain _ | ⟨b0, _ | ⟨b1, rest⟩⟩ := text
    · exact absurd (Nat.zero_le _) h0
    · exact absurd (Nat.le_refl _) h1
    · exact Or.inr ⟨[b0, b1], rest, _, rfl, .two lead tail, rfl⟩
  refine iteInduction (fun lead => ?_) fun _ => ?_
  · refine iteInduction (fun _ => Or.inl rfl) fun h2 => ?_
    refine iteInduction (fun _ => Or.inl rfl) fun tails => ?_
    refine iteInduction (fun _ => Or.inl rfl) fun overlong => ?_
    refine iteInduction (fun _ => Or.inl rfl) fun surrogate => ?_
    simp only [not_or, not_not, not_and, Nat.not_lt] at tails overlong surrogate
    obtain _ | ⟨b0, _ | ⟨b1, _ | ⟨b2, rest⟩⟩⟩ := text
    · exact absurd (Nat.zero_le _) h0
    · exact absurd (Nat.le_succ _) h2
    · exact absurd (Nat.le_refl _) h2
    · exact Or.inr ⟨[b0, b1, b2], rest, _, rfl, .three lead tails overlong surrogate, rfl⟩
  refine iteInduction (fun lead => ?_) fun _ => Or.inl rfl
  refine iteInduction (fun _ => Or.inl rfl) fun h3 => ?_
  refine iteInduction (fun _ => Or.inl rfl) fun tails => ?_
  refine iteInduction (fun _ => Or.inl rfl) fun overlong => ?_
  refine iteInduction (fun _ => Or.inl rfl) fun range => ?_
  simp only [not_or, not_not, not_and, Nat.not_lt, and_assoc] at tails overlong range
  obtain _ | ⟨b0, _ | ⟨b1, _ | ⟨b2, _ | ⟨b3, rest⟩⟩⟩⟩ := text
  · exact absurd (Nat.zero_le _) h0
  · exact absurd (Nat.le_add_right 1 2) h3
  · exact absurd (Nat.le_succ _) h3
  · exact absurd (Nat.le_refl _) h3
  · exact Or.inr ⟨[b0, b1, b2, b3], rest, _, rfl, .four lead tails overlong range, rfl⟩

/-- Where a read succeeds there is a block at the offset. -/
theorem nextCodepoint_eq_true :
    nextCodepoint text offset outCodepoint = (true, offset', c) ↔
      ∃ s rest, text.drop offset = s ++ rest ∧ offset' = offset + s.length ∧ Block s c := by
  rw [nextCodepoint_drop]
  constructor
  · intro h
    rcases nextCodepoint_reads (text.drop offset) outCodepoint with
      hrefused | ⟨s, rest, c', htext, hblock, hread⟩
    · rw [hrefused] at h
      cases h
    · rw [hread] at h
      cases h
      exact ⟨s, rest, htext, rfl, hblock⟩
  · rintro ⟨s, rest, htext, rfl, hblock⟩
    rw [htext, nextCodepoint_block hblock]
    rfl

/-- A failing read leaves the offset alone. -/
theorem nextCodepoint_false (h : (nextCodepoint text offset outCodepoint).1 = false) :
    nextCodepoint text offset outCodepoint = (false, offset, outCodepoint) := by
  rw [nextCodepoint_drop] at h ⊢
  rcases nextCodepoint_reads (text.drop offset) outCodepoint with
    hrefused | ⟨s, rest, c, htext, hblock, hread⟩
  · rw [hrefused]
    rfl
  · rw [hread] at h
    cases h

theorem nextCodepoint_advances (h : nextCodepoint text offset outCodepoint = (true, offset', c)) :
    offset < offset' ∧ offset' ≤ text.length := by
  obtain ⟨s, rest, htext, rfl, hblock⟩ := nextCodepoint_eq_true.mp h
  have hpos := length_pos_of_ne_nil hblock.ne_nil
  have hlength := congrArg List.length htext
  rw [length_drop, length_append] at hlength
  omega

/-- The loop of `isValidUtf8`. -/
def validFrom (text : Text) (offset codepoint : Nat) : Bool :=
  if offset < text.length then
    match _h : nextCodepoint text offset codepoint with
    | (true, offset', codepoint') => validFrom text offset' codepoint'
    | (false, _, _) => false
  else true
  termination_by text.length - offset
  decreasing_by
    have := nextCodepoint_advances _h
    omega

def isValidUtf8 (text : Text) : Bool := validFrom text 0 0

/-- The code points that calls of `nextCodepoint` give until one fails, and the offset then. -/
def codepointsFrom (text : Text) (offset codepoint : Nat) : List Nat × Nat :=
  match _h : nextCodepoint text offset codepoint with
  | (true, offset', codepoint') =>
    let rest := codepointsFrom text offset' codepoint'
    (codepoint' :: rest.1, rest.2)
  | (false, offset', _) => ([], offset')
  termination_by text.length - offset
  decreasing_by
    have := nextCodepoint_advances _h
    omega

theorem validFrom_next (h : nextCodepoint text offset codepoint = (true, offset', c)) :
    validFrom text offset codepoint = validFrom text offset' c := by
  have hadvances := nextCodepoint_advances h
  rw [validFrom, if_pos (by omega)]
  split
  · rename_i hnext
    cases hnext.symm.trans h
    rfl
  · rename_i hnext
    cases hnext.symm.trans h

theorem validFrom_refused (hlt : offset < text.length)
    (h : nextCodepoint text offset codepoint = (false, offset', c)) :
    validFrom text offset codepoint = false := by
  rw [validFrom, if_pos hlt]
  split
  · rename_i hnext
    cases hnext.symm.trans h
  · rfl

theorem codepointsFrom_next (h : nextCodepoint text offset codepoint = (true, offset', c)) :
    codepointsFrom text offset codepoint =
      (c :: (codepointsFrom text offset' c).1, (codepointsFrom text offset' c).2) := by
  rw [codepointsFrom]
  split
  · rename_i hnext
    cases hnext.symm.trans h
    rfl
  · rename_i hnext
    cases hnext.symm.trans h

theorem codepointsFrom_end (codepoint : Nat) (h : text.length ≤ offset) :
    codepointsFrom text offset codepoint = ([], offset) := by
  have hnext : nextCodepoint text offset codepoint = (false, offset, codepoint) := by
    rw [nextCodepoint, if_pos h]
  rw [codepointsFrom]
  split
  · rename_i hnext'
    cases hnext'.symm.trans hnext
  · rename_i hnext'
    cases hnext'.symm.trans hnext
    rfl

/-- The first of some code points is read from their text. -/
theorem nextCodepoint_encode {more : Text} (outCodepoint : Nat) (h : Scalar c)
    (htext : text.drop offset = encodeCodepoint c ++ more) :
    nextCodepoint text offset outCodepoint = (true, offset + (encodeCodepoint c).length, c) ∧
      text.drop (offset + (encodeCodepoint c).length) = more := by
  refine ⟨nextCodepoint_eq_true.mpr ⟨_, more, htext, rfl, h.block⟩, ?_⟩
  rw [← drop_drop, htext, drop_left]

/-- What a successful read takes is the text of its code point. -/
theorem drop_of_nextCodepoint (h : nextCodepoint text offset outCodepoint = (true, offset', c)) :
    Scalar c ∧ text.drop offset = encodeCodepoint c ++ text.drop offset' := by
  obtain ⟨s, rest, htext, rfl, hblock⟩ := nextCodepoint_eq_true.mp h
  obtain ⟨hscalar, hencode⟩ := hblock.encode
  refine ⟨hscalar, ?_⟩
  rw [hencode, ← drop_drop, htext, drop_left]

/-- The text of Unicode scalar values. -/
def Encodes (codepoints : List Nat) (text : Text) : Prop :=
  (∀ c ∈ codepoints, Scalar c) ∧ text = codepoints.flatMap encodeCodepoint

theorem encodes_cons {codepoints : List Nat} :
    Encodes (c :: codepoints) text ↔
      Scalar c ∧ ∃ more, text = encodeCodepoint c ++ more ∧ Encodes codepoints more := by
  simp only [Encodes, forall_mem_cons]
  constructor
  · rintro ⟨⟨hc, hall⟩, rfl⟩
    exact ⟨hc, _, rfl, hall, rfl⟩
  · rintro ⟨hc, more, rfl, hall, rfl⟩
    exact ⟨⟨hc, hall⟩, rfl⟩

/-- From an offset on: the loop accepts the texts of scalar values. -/
theorem validFrom_iff (text : Text) (offset codepoint : Nat) :
    validFrom text offset codepoint = true ↔ ∃ codepoints, Encodes codepoints (text.drop offset) := by
  induction offset, codepoint using validFrom.induct text with
  | case1 offset codepoint hlt offset' c hnext ih =>
    rw [validFrom_next hnext, ih]
    obtain ⟨hscalar, htext⟩ := drop_of_nextCodepoint hnext
    constructor
    · rintro ⟨codepoints, hrest⟩
      exact ⟨c :: codepoints, encodes_cons.mpr ⟨hscalar, _, htext, hrest⟩⟩
    · rintro ⟨codepoints, hrest⟩
      cases codepoints with
      | nil =>
        have hnil := drop_eq_nil_iff.mp hrest.2
        omega
      | cons d codepoints =>
        obtain ⟨hd, more, hmore, hencodes⟩ := encodes_cons.mp hrest
        obtain ⟨hread, rfl⟩ := nextCodepoint_encode codepoint hd hmore
        cases hread.symm.trans hnext
        exact ⟨codepoints, hencodes⟩
  | case2 offset codepoint hlt offset' c hnext =>
    rw [validFrom_refused hlt hnext]
    constructor
    · exact fun h => Bool.noConfusion h
    rintro ⟨codepoints, hrest⟩
    cases codepoints with
    | nil =>
      have hnil := drop_eq_nil_iff.mp hrest.2
      omega
    | cons d codepoints =>
      obtain ⟨hd, more, hmore, -⟩ := encodes_cons.mp hrest
      cases (nextCodepoint_encode codepoint hd hmore).1.symm.trans hnext
  | case3 offset codepoint hle =>
    rw [validFrom, if_neg hle]
    have hnil := drop_eq_nil_iff.mpr (Nat.not_lt.mp hle)
    exact ⟨fun _ => ⟨[], fun _ h => absurd h not_mem_nil, hnil⟩, fun _ => rfl⟩

/-- Calls of `nextCodepoint` give back the code points of a text and end at its end. -/
theorem codepointsFrom_encodes {codepoints : List Nat} (codepoint : Nat)
    (hle : offset ≤ text.length) (h : Encodes codepoints (text.drop offset)) :
    codepointsFrom text offset codepoint = (codepoints, text.length) := by
  induction codepoints generalizing offset codepoint with
  | nil =>
    have hend := drop_eq_nil_iff.mp h.2
    rw [codepointsFrom_end codepoint hend, Nat.le_antisymm hle hend]
  | cons c codepoints ih =>
    obtain ⟨hc, more, hmore, hencodes⟩ := encodes_cons.mp h
    obtain ⟨hread, rfl⟩ := nextCodepoint_encode codepoint hc hmore
    rw [codepointsFrom_next hread, ih c (nextCodepoint_advances hread).2 hencodes]

/-- `isValidUtf8` accepts exactly the texts of Unicode scalar values, reading such a text gives
these back, and a read that fails does not move. -/
theorem isValidUtf8_exact (text : Text) :
    (isValidUtf8 text = true ↔
      ∃ codepoints : List Nat, (∀ c ∈ codepoints, Scalar c) ∧
        text = codepoints.flatMap encodeCodepoint) ∧
    (∀ codepoints : List Nat, (∀ c ∈ codepoints, Scalar c) →
      text = codepoints.flatMap encodeCodepoint →
        codepointsFrom text 0 0 = (codepoints, text.length)) ∧
    ∀ offset outCodepoint, (nextCodepoint text offset outCodepoint).1 = false →
      (nextCodepoint text offset outCodepoint).2.1 = offset := by
  refine ⟨?_, fun codepoints hall htext => ?_, fun offset outCodepoint h => ?_⟩
  · have hvalid := validFrom_iff text 0 0
    rwa [drop_zero] at hvalid
  · exact codepointsFrom_encodes 0 (Nat.zero_le _) (by rw [drop_zero]; exact ⟨hall, htext⟩)
  · rw [nextCodepoint_false h]

/-- What the loop of `escapeSpaces` appends for one byte. -/
def escapedByte (c : UInt8) : Text := if c == 32 then kSentencePieceSpace else [c]

/-- The loop of `unescapeSpaces`. -/
def unescapeFrom : Text → Text
  | [] => []
  | 0xE2 :: 0x96 :: 0x81 :: rest => 32 :: unescapeFrom rest
  | c :: rest => c :: unescapeFrom rest

def unescapeSpaces (text : Text) (stripLeadingDummySpace : Bool) : Text :=
  if text.isEmpty then []
  else if stripLeadingDummySpace && kSentencePieceSpace.isPrefixOf text then
    unescapeFrom (text.drop kSentencePieceSpace.length)
  else unescapeFrom text

theorem unescapeFrom_marker (rest : Text) :
    unescapeFrom (kSentencePieceSpace ++ rest) = 32 :: unescapeFrom rest := by
  rw [kSentencePieceSpace, cons_append, cons_append, cons_append, nil_append, unescapeFrom]

theorem unescapeFrom_cons {c : UInt8} {rest : Text} (h : ¬ kSentencePieceSpace <+: c :: rest) :
    unescapeFrom (c :: rest) = c :: unescapeFrom rest := by
  rw [unescapeFrom]
  rintro rest' rfl rfl
  exact h ⟨rest', rfl⟩

/-- What begins with a byte of the marker other than the first began with it before. -/
theorem head_flatMap_escapedByte {rest : Text} {c : UInt8} (hc : c ≠ 0xE2)
    (h : text.flatMap escapedByte = c :: rest) :
    ∃ text', text = c :: text' ∧ rest = text'.flatMap escapedByte := by
  cases text with
  | nil => cases h
  | cons b text =>
    rw [flatMap_cons, escapedByte] at h
    split at h
    · cases h
      exact absurd rfl hc
    · cases h
      exact ⟨text, rfl, rfl⟩

theorem unescapeFrom_flatMap (h : ¬ kSentencePieceSpace <:+: text) :
    unescapeFrom (text.flatMap escapedByte) = text := by
  induction text with
  | nil => rfl
  | cons c text ih =>
    have hrest : ¬ kSentencePieceSpace <:+: text := fun hin => h (infix_cons hin)
    rw [flatMap_cons, escapedByte]
    split
    · rename_i hspace
      rw [unescapeFrom_marker, ih hrest, beq_iff_eq.mp hspace]
    · rw [singleton_append, unescapeFrom_cons, ih hrest]
      -- a fragment of the marker in the text is not completed by what follows
      rintro ⟨rest, hmarker⟩
      simp only [kSentencePieceSpace, cons_append, List.cons.injEq] at hmarker
      obtain ⟨rfl, hsecond⟩ := hmarker
      obtain ⟨second, rfl, hthird⟩ := head_flatMap_escapedByte (by decide) hsecond.symm
      obtain ⟨third, rfl, -⟩ := head_flatMap_escapedByte (by decide) hthird.symm
      exact h ⟨[], third, rfl⟩

theorem unescapeSpaces_of_marker (rest : Text) (strip : Bool) :
    unescapeSpaces (kSentencePieceSpace ++ rest) strip =
      if strip then unescapeFrom rest else 32 :: unescapeFrom rest := by
  cases strip with
  | false => exact unescapeFrom_marker rest
  | true => rfl

theorem unescapeSpaces_false (text : Text) : unescapeSpaces text false = unescapeFrom text := by
  cases text <;> rfl

/-- A text comes back from its escaped form; with a dummy space, one that begins with a space comes
back without it. -/
theorem unescapeSpaces_escapeSpaces {text : Text} (h : ¬ kSentencePieceSpace <:+: text)
    (dummySpace : Bool) :
    unescapeSpaces (escapeSpaces text dummySpace) dummySpace =
      if dummySpace && text.head? == some 32 then text.tail else text := by
  have hback := unescapeFrom_flatMap h
  cases dummySpace with
  | false =>
    rw [unescapeSpaces_false]
    cases text with
    | nil => rfl
    | cons c text => exact hback
  | true =>
    cases text with
    | nil => rfl
    | cons c text =>
      have hmarker : kSentencePieceSpace.isPrefixOf (c :: text) = false := by
        rw [Bool.eq_false_iff]
        exact fun hpre => h (List.isPrefixOf_iff_prefix.mp hpre).isInfix
      by_cases hc : c = 32
      · subst hc
        exact unescapeFrom_flatMap fun hin => h (infix_cons hin)
      · have hescape : escapeSpaces (c :: text) true =
            kSentencePieceSpace ++ (c :: text).flatMap escapedByte := by
          simp only [escapeSpaces, isEmpty_cons, Bool.false_eq_true, if_false, List.head?_cons,
            hmarker, Bool.true_and, Bool.not_false, Bool.and_true, bne_iff_ne, ne_eq,
            Option.some.injEq, hc, not_false_eq_true, if_true]
          rfl
        rw [hescape, unescapeSpaces_of_marker, if_pos rfl, hback]
        simp [hc]

/-- `" a"` comes back as `"a"`. -/
theorem leading_space_lost : ¬ ∀ text : Text, ¬ kSentencePieceSpace <:+: text → ∀ dummySpace : Bool,
    unescapeSpaces (escapeSpaces text dummySpace) dummySpace = text := by
  intro h
  exact absurd (h [32, 97] (by decide) true) (by decide)

/-- Two of the three bytes of a marker in front of a space. -/
theorem unescapeSpaces_escapeSpaces_fragment :
    unescapeSpaces (escapeSpaces [0xE2, 0x96, 32] true) true = [0xE2, 0x96, 32] :=
  unescapeSpaces_escapeSpaces (by decide) true

end UnicodeNormalizer

end JobTokenizer
