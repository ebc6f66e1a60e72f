import Mathlib.Data.List.Basic
import Mathlib.Data.UInt
import Mathlib.Tactic.Ring

/-!
# UTF-8

The encoder, the decoder of a whole string and the decoder that takes one byte
after the other. Masks and shifts are written as remainders and quotients.
-/

namespace JobAnsi

namespace Utf8Decoder

/-- U+FFFD -/
def replacement : Nat := 0xFFFD

def byte (n : Nat) : UInt8 := UInt8.ofNat n

/-- `encodeTo` -/
def encode (ch : Nat) : List UInt8 :=
  if ch ≤ 0x7F then [byte ch]
  else if ch ≤ 0x7FF then [byte (0xC0 + ch / 64 % 32), byte (0x80 + ch % 64)]
  else if ch ≤ 0xFFFF then
    [byte (0xE0 + ch / 4096 % 16), byte (0x80 + ch / 64 % 64), byte (0x80 + ch % 64)]
  else if ch ≤ 0x10FFFF then
    [byte (0xF0 + ch / 262144 % 8), byte (0x80 + ch / 4096 % 64), byte (0x80 + ch / 64 % 64),
      byte (0x80 + ch % 64)]
  else [63]

/-- The length that a lead byte announces; zero for a byte that is none. -/
def determineLength (lead : UInt8) : Nat :=
  let n := lead.toNat
  if n < 0x80 then 1
  else if n / 32 = 0x06 then 2
  else if n / 16 = 0x0E then 3
  else if n / 8 = 0x1E then 4
  else 0

/-- `(b & 0xC0) == 0x80` -/
def isContinuation (b : UInt8) : Bool := b.toNat / 64 = 2

/-- The verdict, and what `outChar` holds: without a decoded value it keeps `outChar`. -/
def validateUtf8Sequence (bytes : List UInt8) (outChar : Nat) : Bool × Nat :=
  match bytes with
  | [a] => if a.toNat ≤ 0x7F then (true, a.toNat) else (false, outChar)
  | [a, b] =>
    if isContinuation b then
      let ch := a.toNat % 32 * 64 + b.toNat % 64
      (0x80 ≤ ch, ch)
    else (false, outChar)
  | [a, b, c] =>
    if isContinuation b && isContinuation c then
      let ch := a.toNat % 16 * 4096 + b.toNat % 64 * 64 + c.toNat % 64
      if 0xD800 ≤ ch ∧ ch ≤ 0xDFFF then (false, ch) else (0x800 ≤ ch, ch)
    else (false, outChar)
  | [a, b, c, d] =>
    if isContinuation b && isContinuation c && isContinuation d then
      let ch := a.toNat % 8 * 262144 + b.toNat % 64 * 4096 + c.toNat % 64 * 64 + d.toNat % 64
      (0x10000 ≤ ch ∧ ch ≤ 0x10FFFF, ch)
    else (false, outChar)
  | _ => (false, outChar)

/-- The sequence at the front: its length and its character, if all of it is there and valid. -/
def validAt (bytes : List UInt8) : Option (Nat × Nat) :=
  match bytes with
  | [] => none
  | lead :: _ =>
    let cpLen := determineLength lead
    if cpLen = 0 ∨ bytes.length < cpLen then none
    else
      let verdict := validateUtf8Sequence (bytes.take cpLen) 0
      if verdict.1 then some (cpLen, verdict.2) else none

/-- `decodeUtf8Stream`: what is not valid costs one byte. -/
def decodeUtf8Stream (bytes : List UInt8) : List Nat :=
  match bytes with
  | [] => []
  | lead :: rest =>
    match validAt (lead :: rest) with
    | some (cpLen, ch) => ch :: decodeUtf8Stream (rest.drop (cpLen - 1))
    | none => replacement :: decodeUtf8Stream rest
  termination_by bytes.length
  decreasing_by all_goals simp only [List.length_drop, List.length_cons]; omega

/-- `isValid` -/
def isValid (bytes : List UInt8) : Bool :=
  match bytes with
  | [] => true
  | lead :: rest =>
    match validAt (lead :: rest) with
    | some (cpLen, _) => isValid (rest.drop (cpLen - 1))
    | none => false
  termination_by bytes.length
  decreasing_by simp only [List.length_drop, List.length_cons]; omega

end Utf8Decoder

open Utf8Decoder

/-- The streaming decoder. -/
structure Utf8Decoder where
  buffer : List UInt8 := []
  expectedLength : Nat := 0
  deriving DecidableEq

namespace Utf8Decoder

def appendByte (decoder : Utf8Decoder) (b : UInt8) : Utf8Decoder :=
  { buffer := decoder.buffer ++ [b]
    expectedLength :=
      if decoder.buffer = [] then determineLength b else decoder.expectedLength }

def isComplete (decoder : Utf8Decoder) : Bool :=
  0 < decoder.expectedLength ∧ decoder.buffer.length = decoder.expectedLength

/-- The character of a complete sequence, valid or not. -/
def takeChar (decoder : Utf8Decoder) : Nat :=
  (validateUtf8Sequence decoder.buffer replacement).2

/-- One turn of the loop of `parseInput`: the decoder, and the character that became complete. -/
def feed (decoder : Utf8Decoder) (b : UInt8) : Utf8Decoder × Option Nat :=
  let decoder := decoder.appendByte b
  if decoder.isComplete then ({}, some decoder.takeChar) else (decoder, none)

/-- The characters that `parseInput` obtains, and the decoder behind them. -/
def feedAll (decoder : Utf8Decoder) : List UInt8 → Utf8Decoder × List Nat
  | [] => (decoder, [])
  | b :: bytes =>
    let fed := decoder.feed b
    let rest := fed.1.feedAll bytes
    (rest.1, fed.2.toList ++ rest.2)

end Utf8Decoder

end JobAnsi

/-!
## Streaming and batch decoding

The streaming decoder cuts its input into blocks: a lead byte and as many bytes as
it announces, valid or not. A byte that announces nothing ends the cutting for good.
It agrees with the batch decoder on valid strings, and on no others.
-/

namespace JobAnsi

namespace Utf8Decoder

variable {lead b : UInt8} {rest : List UInt8} {ch : Nat}

/-- The characters of the blocks, up to a byte that is no lead byte or a block that is cut off. -/
def blockChars (bytes : List UInt8) : List Nat :=
  match bytes with
  | [] => []
  | lead :: rest =>
    let cpLen := determineLength lead
    if cpLen = 0 ∨ rest.length + 1 < cpLen then []
    else
      (validateUtf8Sequence (lead :: rest.take (cpLen - 1)) replacement).2 ::
        blockChars (rest.drop (cpLen - 1))
  termination_by bytes.length
  decreasing_by simp only [List.length_drop, List.length_cons]; omega

/-- The string is a row of blocks: each begins with a lead byte and is as long as that says. -/
def inBlocks (bytes : List UInt8) : Bool :=
  match bytes with
  | [] => true
  | lead :: rest =>
    let cpLen := determineLength lead
    0 < cpLen && cpLen ≤ rest.length + 1 && inBlocks (rest.drop (cpLen - 1))
  termination_by bytes.length
  decreasing_by simp only [List.length_drop, List.length_cons]; omega

variable {decoder : Utf8Decoder} {bytes : List UInt8}

theorem feedAll_append (decoder : Utf8Decoder) (front back : List UInt8) :
    decoder.feedAll (front ++ back) =
      (((decoder.feedAll front).1.feedAll back).1,
        (decoder.feedAll front).2 ++ ((decoder.feedAll front).1.feedAll back).2) := by
  induction front generalizing decoder with
  | nil => rfl
  | cons b front ih => simp [feedAll, ih]

theorem feed_complete (h : (decoder.appendByte b).isComplete = true) :
    decoder.feed b = ({}, some (decoder.appendByte b).takeChar) := by
  simp [feed, h]

theorem feed_incomplete (h : (decoder.appendByte b).isComplete = false) :
    decoder.feed b = (decoder.appendByte b, none) := by
  simp [feed, h]

theorem feed_waits (hne : decoder.buffer ≠ []) (b : UInt8)
    (hwaits : decoder.expectedLength ≤ decoder.buffer.length ∨
      decoder.buffer.length + 1 < decoder.expectedLength) :
    decoder.feed b = ({ decoder with buffer := decoder.buffer ++ [b] }, none) := by
  have hcomplete : (decoder.appendByte b).isComplete = false := by
    simp only [appendByte, isComplete, if_neg hne, List.length_append, List.length_singleton,
      decide_eq_false_iff_not]
    omega
  rw [feed_incomplete hcomplete, appendByte, if_neg hne]

/-- Behind its expected length, or short of it, the decoder only collects. -/
theorem feedAll_waits (hne : decoder.buffer ≠ [])
    (hwaits : decoder.expectedLength ≤ decoder.buffer.length ∨
      decoder.buffer.length + bytes.length < decoder.expectedLength) :
    decoder.feedAll bytes = ({ decoder with buffer := decoder.buffer ++ bytes }, []) := by
  induction bytes generalizing decoder with
  | nil => simp [feedAll]
  | cons b bytes ih =>
    have hfed := feed_waits hne b (by simp only [List.length_cons] at hwaits; omega)
    simp only [feedAll, hfed]
    rw [ih (by simp) (by
      simp only [List.length_cons, List.length_append, List.length_nil] at hwaits ⊢
      omega)]
    simp

/-- The last byte of a block. -/
theorem feed_completes (hne : decoder.buffer ≠ []) (b : UInt8)
    (hlength : decoder.buffer.length + 1 = decoder.expectedLength) :
    decoder.feed b =
      ({}, some (validateUtf8Sequence (decoder.buffer ++ [b]) replacement).2) := by
  have hcomplete : (decoder.appendByte b).isComplete = true := by
    simp only [appendByte, isComplete, if_neg hne, List.length_append, List.length_singleton,
      decide_eq_true_eq]
    omega
  rw [feed_complete hcomplete, takeChar, appendByte]

theorem feed_lead (lead : UInt8) (hone : determineLength lead ≠ 1) :
    ({} : Utf8Decoder).feed lead =
      ({ buffer := [lead], expectedLength := determineLength lead }, none) := by
  have hcomplete : (({} : Utf8Decoder).appendByte lead).isComplete = false := by
    simp only [appendByte, isComplete, if_true, List.nil_append, List.length_singleton,
      decide_eq_false_iff_not]
    omega
  rw [feed_incomplete hcomplete]
  rfl

/-- From a byte that is no lead byte, and in a block that is cut off, nothing comes out. -/
theorem feedAll_stalls
    (hstalls : determineLength lead = 0 ∨ rest.length + 1 < determineLength lead) :
    ({} : Utf8Decoder).feedAll (lead :: rest) =
      ({ buffer := lead :: rest, expectedLength := determineLength lead }, []) := by
  simp only [feedAll, feed_lead lead (by omega)]
  rw [feedAll_waits (by simp) (by simp only [List.length_singleton]; omega)]
  simp

theorem feedAll_block (hlength : determineLength lead = rest.length + 1) :
    ({} : Utf8Decoder).feedAll (lead :: rest) =
      ({}, [(validateUtf8Sequence (lead :: rest) replacement).2]) := by
  rcases List.eq_nil_or_concat rest with rfl | ⟨front, last, rfl⟩
  · have hcomplete : (({} : Utf8Decoder).appendByte lead).isComplete = true := by
      simp [appendByte, isComplete, hlength]
    rw [feedAll, feed_complete hcomplete]
    rfl
  · simp only [List.concat_eq_append, List.length_append, List.length_singleton] at hlength
    have hfront := @feedAll_stalls lead front (.inr (by omega))
    rw [List.concat_eq_append, ← List.cons_append, feedAll_append, hfront]
    simp only [feedAll]
    rw [feed_completes (by simp) last (by simp only [List.length_cons]; omega)]
    simp

theorem feedAll_cons (hpos : 0 < determineLength lead)
    (hle : determineLength lead ≤ rest.length + 1) :
    ({} : Utf8Decoder).feedAll (lead :: rest) =
      ((({} : Utf8Decoder).feedAll (rest.drop (determineLength lead - 1))).1,
        (validateUtf8Sequence (lead :: rest.take (determineLength lead - 1)) replacement).2 ::
          (({} : Utf8Decoder).feedAll (rest.drop (determineLength lead - 1))).2) := by
  have hblock := @feedAll_block lead (rest.take (determineLength lead - 1))
    (by rw [List.length_take]; omega)
  conv_lhs => rw [← List.take_append_drop (determineLength lead - 1) rest]
  rw [← List.cons_append, feedAll_append, hblock]
  rfl

theorem feedAll_chars (bytes : List UInt8) :
    (({} : Utf8Decoder).feedAll bytes).2 = blockChars bytes := by
  fun_induction blockChars bytes with
  | case1 => rfl
  | case2 lead rest cpLen hstalls => rw [feedAll_stalls hstalls]
  | case3 lead rest cpLen hstalls ih => rw [feedAll_cons (by omega) (by omega), ih]

/-- Between two blocks the decoder is as new. -/
theorem feedAll_fresh_iff (bytes : List UInt8) :
    (({} : Utf8Decoder).feedAll bytes).1 = {} ↔ inBlocks bytes = true := by
  fun_induction inBlocks bytes with
  | case1 => simp [feedAll]
  | case2 lead rest cpLen ih =>
    by_cases hstalls : cpLen = 0 ∨ rest.length + 1 < cpLen
    · rw [feedAll_stalls hstalls]
      simp
      omega
    · rw [feedAll_cons (by omega) (by omega), ih]
      simp
      omega

/-- A character of Unicode: in range, and no surrogate. -/
def Scalar (ch : Nat) : Prop := ch ≤ 0x10FFFF ∧ ¬(0xD800 ≤ ch ∧ ch ≤ 0xDFFF)

instance (ch : Nat) : Decidable (Scalar ch) := inferInstanceAs (Decidable (_ ∧ _))

theorem byte_toNat {n : Nat} (h : n < 256) : (byte n).toNat = n := UInt8.toNat_ofNat_of_lt' h

/-- An encoded character is one block, and decodes to itself. -/
theorem encode_block (h : Scalar ch) : ∃ lead rest, encode ch = lead :: rest ∧
    determineLength lead = rest.length + 1 ∧
    ∀ out, validateUtf8Sequence (lead :: rest) out = (true, ch) := by
  obtain ⟨hle, hsurrogate⟩ := h
  unfold encode
  split_ifs with h1 h2 h3
  · refine ⟨_, _, rfl, ?_, fun out => ?_⟩
    · simp [determineLength, byte_toNat (show ch < 256 by omega), if_pos (show ch < 0x80 by omega)]
    · simp [validateUtf8Sequence, byte_toNat (show ch < 256 by omega), h1]
  · have ha := byte_toNat (show 0xC0 + ch / 64 % 32 < 256 by omega)
    have hb := byte_toNat (show 0x80 + ch % 64 < 256 by omega)
    refine ⟨_, _, rfl, ?_, fun out => ?_⟩
    · simp only [determineLength, List.length_cons, List.length_nil]
      rw [if_neg (by omega), if_pos (by omega)]
    · simp only [validateUtf8Sequence, isContinuation, ha]
      rw [if_pos (by simp; omega)]
      simp
      omega
  · have ha := byte_toNat (show 0xE0 + ch / 4096 % 16 < 256 by omega)
    have hb := byte_toNat (show 0x80 + ch / 64 % 64 < 256 by omega)
    have hc := byte_toNat (show 0x80 + ch % 64 < 256 by omega)
    refine ⟨_, _, rfl, ?_, fun out => ?_⟩
    · simp only [determineLength, List.length_cons, List.length_nil]
      rw [if_neg (by omega), if_neg (by omega), if_pos (by omega)]
    · have hvalue : (0xE0 + ch / 4096 % 16) % 16 * 4096 + (0x80 + ch / 64 % 64) % 64 * 64 +
          (0x80 + ch % 64) % 64 = ch := by omega
      simp only [validateUtf8Sequence, isContinuation, ha, hb, hc, hvalue]
      rw [if_pos (by simp; omega), if_neg hsurrogate]
      simp
      omega
  · have ha := byte_toNat (show 0xF0 + ch / 262144 % 8 < 256 by omega)
    have hb := byte_toNat (show 0x80 + ch / 4096 % 64 < 256 by omega)
    have hc := byte_toNat (show 0x80 + ch / 64 % 64 < 256 by omega)
    have hd := byte_toNat (show 0x80 + ch % 64 < 256 by omega)
    refine ⟨_, _, rfl, ?_, fun out => ?_⟩
    · simp only [determineLength, List.length_cons, List.length_nil]
      rw [if_neg (by omega), if_neg (by omega), if_neg (by omega), if_pos (by omega)]
    · have hvalue : (0xF0 + ch / 262144 % 8) % 8 * 262144 + (0x80 + ch / 4096 % 64) % 64 * 4096 +
          (0x80 + ch / 64 % 64) % 64 * 64 + (0x80 + ch % 64) % 64 = ch := by omega
      simp only [validateUtf8Sequence, isContinuation, ha, hb, hc, hd, hvalue]
      rw [if_pos (by simp; omega)]
      simp
      omega

theorem feedAll_encode (h : Scalar ch) : ({} : Utf8Decoder).feedAll (encode ch) = ({}, [ch]) := by
  obtain ⟨lead, rest, hencode, hlength, hvalid⟩ := encode_block h
  rw [hencode, feedAll_block hlength, hvalid]

theorem feedAll_encodes {text : List Nat} (h : ∀ ch ∈ text, Scalar ch) :
    ({} : Utf8Decoder).feedAll (text.flatMap encode) = ({}, text) := by
  induction text with
  | nil => rfl
  | cons ch text ih =>
    rw [List.flatMap_cons, feedAll_append, feedAll_encode (h ch (by simp)),
      ih fun c hc => h c (List.mem_cons_of_mem _ hc)]
    rfl

theorem determineLength_continuation (h : isContinuation b = true) : determineLength b = 0 := by
  simp only [isContinuation, decide_eq_true_eq] at h
  simp only [determineLength]
  rw [if_neg (by omega), if_neg (by omega), if_neg (by omega), if_neg (by omega)]

/-- A valid sequence has its value whatever was there before. -/
theorem validate_out {out : Nat} (h : (validateUtf8Sequence bytes out).1 = true) (out' : Nat) :
    validateUtf8Sequence bytes out' = validateUtf8Sequence bytes out := by
  unfold validateUtf8Sequence at h ⊢
  split at h
  · split at h
    · rename_i hshape
      rw [if_pos hshape, if_pos hshape]
    · simp at h
  · split at h
    · rename_i hshape
      rw [if_pos hshape, if_pos hshape]
    · simp at h
  · split at h
    · rename_i hshape
      rw [if_pos hshape, if_pos hshape]
    · simp at h
  · split at h
    · rename_i hshape
      rw [if_pos hshape, if_pos hshape]
    · simp at h
  · simp at h

theorem validate_continuation {out : Nat} (h : (validateUtf8Sequence bytes out).1 = true) {i : Nat}
    (hi : 0 < i) (hb : bytes[i]? = some b) : isContinuation b = true := by
  unfold validateUtf8Sequence at h
  split at h
  · grind
  · split at h
    · grind
    · simp at h
  · split at h
    · grind
    · simp at h
  · split at h
    · grind
    · simp at h
  · simp at h

theorem validAt_some {cpLen : Nat} (h : validAt (lead :: rest) = some (cpLen, ch)) :
    cpLen = determineLength lead ∧ 0 < cpLen ∧ cpLen ≤ rest.length + 1 ∧
      validateUtf8Sequence (lead :: rest.take (cpLen - 1)) 0 = (true, ch) := by
  obtain ⟨hlength, h⟩ := Option.ite_none_left_eq_some.1 h
  obtain ⟨hvalid, h⟩ := Option.ite_none_right_eq_some.1 h
  cases h
  simp only [not_or, not_lt] at hlength
  refine ⟨rfl, by omega, hlength.2, ?_⟩
  rw [show determineLength lead = (determineLength lead - 1) + 1 by omega] at hvalid ⊢
  exact Prod.ext hvalid rfl

/-- A lead byte of ASCII is valid by itself. -/
theorem validAt_ascii (h : determineLength lead = 1) : (validAt (lead :: rest)).isSome = true := by
  have hlt : lead.toNat ≤ 0x7F := by
    simp only [determineLength] at h
    grind
  simp [validAt, h, validateUtf8Sequence, hlt]

/-- One turn of the batch decoder: it goes on by one byte, or by one valid character, in which no
block begins. -/
theorem decode_turn (lead : UInt8) (rest : List UInt8) : ∃ n, n ≤ rest.length ∧
    (decodeUtf8Stream (lead :: rest)).length = (decodeUtf8Stream (rest.drop n)).length + 1 ∧
    (n = 0 ∨ n + 1 = determineLength lead) ∧
    ∀ i b, i < n → rest[i]? = some b → determineLength b = 0 := by
  rw [decodeUtf8Stream]
  cases hvalid : validAt (lead :: rest) with
  | none => exact ⟨0, by omega, rfl, .inl rfl, by omega⟩
  | some found =>
    obtain ⟨cpLen⟩ := found
    obtain ⟨hlead, hpos, hle, hsequence⟩ := validAt_some hvalid
    refine ⟨cpLen - 1, by omega, rfl, .inr (by omega), fun i b hi hb => ?_⟩
    refine determineLength_continuation (validate_continuation (i := i + 1)
      (congrArg Prod.fst hsequence) (by omega) ?_)
    rw [List.getElem?_cons_succ, List.getElem?_take_of_lt hi]
    exact hb

/-- Wherever the blocks begin, there are at most as many as characters in the batch, and fewer
when a byte has been left out before them. -/
theorem blockChars_length_le (bytes : List UInt8) : ∀ j,
    (blockChars (bytes.drop j)).length ≤ (decodeUtf8Stream bytes).length ∧
      (0 < j → j ≤ bytes.length →
        (blockChars (bytes.drop j)).length < (decodeUtf8Stream bytes).length) := by
  induction hlen : bytes.length using Nat.strong_induction_on generalizing bytes with
  | _ length ih =>
    intro j
    cases bytes with
    | nil =>
      simp only [List.drop_nil, blockChars, List.length_nil] at hlen ⊢
      omega
    | cons lead rest =>
      obtain ⟨n, hn, hturn, hlead, hinside⟩ := decode_turn lead rest
      simp only [List.length_cons] at hlen
      have hnext := ih (rest.drop n).length (by rw [List.length_drop]; omega) (rest.drop n) rfl
      rw [hturn]
      cases j with
      | zero =>
        refine ⟨?_, by omega⟩
        rw [List.drop_zero, blockChars]
        split
        · simp
        · have hdrop := (hnext (determineLength lead - 1 - n)).1
          rw [List.drop_drop, show n + (determineLength lead - 1 - n) = determineLength lead - 1 by
            omega] at hdrop
          simp only [List.length_cons]
          omega
      | succ j =>
        rw [List.drop_succ_cons]
        by_cases hj : n ≤ j
        · have hdrop := (hnext (j - n)).1
          rw [List.drop_drop, show n + (j - n) = j by omega] at hdrop
          omega
        · -- No block begins inside a valid character.
          cases hrest : rest.drop j with
          | nil => simp [blockChars]
          | cons b back =>
            have hb : rest[j]? = some b := by
              rw [← List.head?_drop, hrest]
              rfl
            have hzero := hinside j b (by omega) hb
            simp [blockChars, hzero]

theorem decode_of_valid (h : isValid bytes = true) : blockChars bytes = decodeUtf8Stream bytes := by
  induction hlen : bytes.length using Nat.strong_induction_on generalizing bytes with
  | _ length ih =>
    cases bytes with
    | nil => simp [blockChars, decodeUtf8Stream]
    | cons lead rest =>
      rw [isValid] at h
      rw [blockChars, decodeUtf8Stream]
      cases hvalid : validAt (lead :: rest) with
      | none => simp [hvalid] at h
      | some found =>
        obtain ⟨cpLen⟩ := found
        obtain ⟨rfl, hpos, hle, hsequence⟩ := validAt_some hvalid
        have hout := validate_out (congrArg Prod.fst hsequence) replacement
        simp only [hvalid] at h ⊢
        simp only [List.length_cons] at hlen
        rw [if_neg (by omega), hout, hsequence,
          ih _ (by rw [List.length_drop]; omega) h rfl]

theorem valid_of_decode (h : blockChars bytes = decodeUtf8Stream bytes) : isValid bytes = true := by
  induction hlen : bytes.length using Nat.strong_induction_on generalizing bytes with
  | _ length ih =>
    cases bytes with
    | nil => simp [isValid]
    | cons lead rest =>
      simp only [List.length_cons] at hlen
      rw [isValid]
      cases hvalid : validAt (lead :: rest) with
      | none =>
        exfalso
        have hlengths := congrArg List.length h
        rw [decodeUtf8Stream, blockChars] at hlengths
        simp only [hvalid] at hlengths
        split at hlengths
        · simp at hlengths
        · have hlead : determineLength lead ≠ 1 := fun hone => by
            have hascii := @validAt_ascii _ rest hone
            simp [hvalid] at hascii
          have hlt := (blockChars_length_le rest (determineLength lead - 1)).2 (by omega) (by omega)
          simp only [List.length_cons] at hlengths
          omega
      | some found =>
        obtain ⟨cpLen⟩ := found
        obtain ⟨rfl⟩ := validAt_some hvalid
        rw [blockChars, decodeUtf8Stream] at h
        simp only [hvalid] at h
        rw [if_neg (by omega)] at h
        exact ih _ (by rw [List.length_drop]; omega) (List.cons.inj h).2 rfl

/-- The characters that the encoded text gives behind the bytes of `front`. -/
def charsAfter (front : List UInt8) (text : List Nat) : List Nat :=
  ((({} : Utf8Decoder).feedAll front).1.feedAll (text.flatMap encode)).2

/-- From some character on, every text comes out of the decoder again. -/
def Resyncs (front : List UInt8) : Prop :=
  ∃ n, ∀ text : List Nat, (∀ ch ∈ text, Scalar ch) → text.drop n <:+ charsAfter front text

/-- A decoder that is not as new stalls, or is inside a block. -/
theorem feedAll_state (bytes : List UInt8) : (({} : Utf8Decoder).feedAll bytes).1 = {} ∨
    ∃ lead rest, (determineLength lead = 0 ∨ rest.length + 1 < determineLength lead) ∧
      (({} : Utf8Decoder).feedAll bytes).1 =
        { buffer := lead :: rest, expectedLength := determineLength lead } := by
  fun_induction inBlocks bytes with
  | case1 => exact .inl rfl
  | case2 lead rest cpLen ih =>
    by_cases hstalls : cpLen = 0 ∨ rest.length + 1 < cpLen
    · exact .inr ⟨lead, rest, hstalls, by rw [feedAll_stalls hstalls]⟩
    · rw [feedAll_cons (by omega) (by omega)]
      exact ih

theorem determineLength_le (lead : UInt8) : determineLength lead ≤ 4 := by
  simp only [determineLength]
  split_ifs <;> omega

/-- A character that is one byte longer than what a block lacks. -/
theorem exists_longer {n : Nat} (hpos : 0 < n) (hle : n ≤ 3) : ∃ ch front last, Scalar ch ∧
    encode ch = front ++ [last] ∧ front.length = n ∧ determineLength last = 0 := by
  obtain rfl | rfl | rfl : n = 1 ∨ n = 2 ∨ n = 3 := by omega
  · exact ⟨0xE9, [0xC3], 0xA9, by decide, by decide, rfl, by decide⟩
  · exact ⟨0x20AC, [0xE2, 0x82], 0xAC, by decide, by decide, rfl, by decide⟩
  · exact ⟨0x1F600, [0xF0, 0x9F, 0x98], 0x80, by decide, by decide, rfl, by decide⟩

/-- Inside a block, some text gives one character at most, however long it is. -/
theorem exists_stalling {front : List UInt8} (h : inBlocks front = false) :
    ∃ ch, Scalar ch ∧ ∀ n, (charsAfter front (List.replicate (n + 1) ch)).length ≤ 1 := by
  rcases feedAll_state front with hfresh | ⟨lead, rest, hstate, hdecoder⟩
  · rw [feedAll_fresh_iff] at hfresh
    simp [h] at hfresh
  · unfold charsAfter
    rw [hdecoder]
    rcases hstate with hzero | hshort
    · refine ⟨0x20, by decide, fun n => ?_⟩
      rw [feedAll_waits (by simp) (by simp [hzero])]
      simp
    · obtain ⟨ch, back, last, hscalar, hencode, hlength, hlast⟩ :=
        exists_longer (n := determineLength lead - (rest.length + 1)) (by omega)
          (by have := determineLength_le lead; omega)
      refine ⟨ch, hscalar, fun n => ?_⟩
      have hopen := @feedAll_stalls lead rest (.inr hshort)
      have hblock := @feedAll_block lead (rest ++ back)
        (by rw [List.length_append]; omega)
      rw [← List.cons_append, feedAll_append, hopen] at hblock
      rw [List.replicate_succ, List.flatMap_cons, hencode, List.append_assoc, feedAll_append,
        congrArg Prod.fst hblock, List.singleton_append, feedAll_stalls (.inl hlast)]
      have hone := congrArg (List.length ∘ Prod.snd) hblock
      simpa using hone.le

theorem resyncs_iff (front : List UInt8) : Resyncs front ↔ inBlocks front = true := by
  constructor
  · rintro ⟨n, hn⟩
    by_contra hblocks
    obtain ⟨ch, hscalar, hlength⟩ := exists_stalling (Bool.eq_false_iff.2 hblocks)
    have hsuffix := hn (List.replicate (n + 1 + 1) ch) (by
      intro c hc
      rw [List.eq_of_mem_replicate hc]
      exact hscalar)
    have hle := hsuffix.length_le.trans (hlength (n + 1))
    simp only [List.length_drop, List.length_replicate] at hle
    omega
  · intro hblocks
    refine ⟨0, fun text htext => ?_⟩
    rw [charsAfter, (feedAll_fresh_iff front).2 hblocks, feedAll_encodes htext]
    exact List.suffix_rfl

/-- The streaming decoder gives what the batch decoder gives exactly for valid strings, and it
falls into step again exactly behind a row of whole blocks. -/
theorem streaming_iff (bytes front : List UInt8) :
    ((({} : Utf8Decoder).feedAll bytes).2 = decodeUtf8Stream bytes ↔ isValid bytes = true) ∧
      (Resyncs front ↔ inBlocks front = true) := by
  constructor
  · rw [feedAll_chars]
    exact ⟨valid_of_decode, decode_of_valid⟩
  · exact resyncs_iff front

/-- A stray continuation byte stops the streaming decoder for good: of the letters behind it none
comes out, and the batch decoder goes on. -/
theorem stray_stalls :
    ¬ ((∀ front ch, Scalar ch → (({} : Utf8Decoder).feedAll (front ++ encode ch)).2 =
        decodeUtf8Stream (front ++ encode ch)) ∧ ∀ front, Resyncs front) := by
  rintro ⟨hagree, -⟩
  have hstray := hagree [0x80] 0x41 (by decide)
  revert hstray
  decide +kernel

end Utf8Decoder

end JobAnsi
