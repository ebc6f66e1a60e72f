import Mathlib.Data.Fin.VecNotation
import Mathlib.Logic.Function.Iterate
import OddBuilder.Library.LittleEndian

/-!
# SipHash

`JobSipHash`: the scalar hash of a byte string, the vector program that hashes the two words
in each of four lanes, and SipHash-2-4, which both compute. A vector operation has its
meaning lane by lane, and words are in memory with the low byte first.
-/

namespace JobSipHash

open List LittleEndian

abbrev Bytes := List UInt8

/-- `std::rotl` -/
def rotl (x : UInt64) (shift : UInt64) : UInt64 := x <<< shift ||| x >>> (64 - shift)

@[ext] structure State where
  v0 : UInt64
  v1 : UInt64
  v2 : UInt64
  v3 : UInt64

namespace State

/-- `SIPROUND()` -/
def round (s : State) : State :=
  let v0 := s.v0 + s.v1
  let v2 := s.v2 + s.v3
  let v1 := rotl s.v1 13
  let v3 := rotl s.v3 16
  let v1 := v1 ^^^ v0
  let v3 := v3 ^^^ v2
  let v0 := rotl v0 32
  let v2 := v2 + v1
  let v0 := v0 + v3
  let v1 := rotl v1 17
  let v3 := rotl v3 21
  let v1 := v1 ^^^ v2
  let v3 := v3 ^^^ v0
  let v2 := rotl v2 32
  ⟨v0, v1, v2, v3⟩

/-- What is done with each word of the message. -/
def absorb (s : State) (m : UInt64) : State :=
  let s := { s with v3 := s.v3 ^^^ m }.round.round
  { s with v0 := s.v0 ^^^ m }

def finish (s : State) : UInt64 :=
  let s := { s with v2 := s.v2 ^^^ 0xff }.round.round.round.round
  s.v0 ^^^ s.v1 ^^^ s.v2 ^^^ s.v3

def init (k0 k1 : UInt64) : State :=
  ⟨0x736f6d6570736575 ^^^ k0, 0x646f72616e646f6d ^^^ k1, 0x6c7967656e657261 ^^^ k0,
    0x7465646279746573 ^^^ k1⟩

end State

/-- `std::to_integer<uint64_t>(data[i])` -/
def byteAt (data : Bytes) (i : Nat) : UInt64 := (data.getD i 0).toUInt64

def load64Le (data : Bytes) : UInt64 :=
  byteAt data 0 ||| byteAt data 1 <<< 8 ||| byteAt data 2 <<< 16 ||| byteAt data 3 <<< 24 |||
    byteAt data 4 <<< 32 ||| byteAt data 5 <<< 40 ||| byteAt data 6 <<< 48 ||| byteAt data 7 <<< 56

/-- The loop over whole words, with the bytes that it leaves. -/
def absorbWords (s : State) : Bytes → State × Bytes
  | b0 :: b1 :: b2 :: b3 :: b4 :: b5 :: b6 :: b7 :: data =>
    absorbWords (s.absorb (load64Le [b0, b1, b2, b3, b4, b5, b6, b7])) data
  | data => (s, data)

/-- The word with the length and the bytes that are left; the cases of the switch fall through. -/
def lastWord (length : Nat) (data : Bytes) : UInt64 :=
  let m := UInt64.ofNat length <<< 56
  let m := if 7 ≤ length % 8 then m ||| byteAt data 6 <<< 48 else m
  let m := if 6 ≤ length % 8 then m ||| byteAt data 5 <<< 40 else m
  let m := if 5 ≤ length % 8 then m ||| byteAt data 4 <<< 32 else m
  let m := if 4 ≤ length % 8 then m ||| byteAt data 3 <<< 24 else m
  let m := if 3 ≤ length % 8 then m ||| byteAt data 2 <<< 16 else m
  let m := if 2 ≤ length % 8 then m ||| byteAt data 1 <<< 8 else m
  if 1 ≤ length % 8 then m ||| byteAt data 0 else m

def siphash24Key (data : Bytes) (k0 k1 : UInt64) : UInt64 :=
  let (s, left) := absorbWords (State.init k0 k1) data
  (s.absorb (lastWord data.length left)).finish

/-- A vector of four words. -/
abbrev Lanes := Fin 4 → UInt64

namespace SIMD

def set1 (x : UInt64) : Lanes := fun _ => x
def add (a b : Lanes) : Lanes := fun i => a i + b i
def xor (a b : Lanes) : Lanes := fun i => a i ^^^ b i
def or (a b : Lanes) : Lanes := fun i => a i ||| b i
def slli (shift : UInt64) (a : Lanes) : Lanes := fun i => a i <<< shift
def srli (shift : UInt64) (a : Lanes) : Lanes := fun i => a i >>> shift

def rotl (shift : UInt64) (a : Lanes) : Lanes := or (slli shift a) (srli (64 - shift) a)

/-- The half of two vectors that two bits of a mask select. -/
def half (a b : Lanes) (select : Nat) : UInt64 × UInt64 :=
  match select % 4 with
  | 0 => (a 0, a 1)
  | 1 => (a 2, a 3)
  | 2 => (b 0, b 1)
  | _ => (b 2, b 3)

/-- `_mm256_permute2x128_si256`, for masks that clear no half. -/
def permute2x128 (a b : Lanes) (mask : Nat) : Lanes :=
  ![(half a b mask).1, (half a b mask).2, (half a b (mask / 16)).1, (half a b (mask / 16)).2]

/-- `_mm256_unpacklo_epi64` -/
def unpacklo (a b : Lanes) : Lanes := ![a 0, b 0, a 2, b 2]

/-- `_mm256_unpackhi_epi64` -/
def unpackhi (a b : Lanes) : Lanes := ![a 1, b 1, a 3, b 3]

def loadSipHashTile4 (p : Fin 8 → UInt64) : Lanes × Lanes :=
  let a : Lanes := ![p 0, p 1, p 2, p 3]
  let b : Lanes := ![p 4, p 5, p 6, p 7]
  let t0 := permute2x128 a b 0x20
  let t1 := permute2x128 a b 0x31
  (unpacklo t0 t1, unpackhi t0 t1)

end SIMD

structure LaneState where
  v0 : Lanes
  v1 : Lanes
  v2 : Lanes
  v3 : Lanes

namespace LaneState

/-- `SIPROUND_I64()` -/
def round (s : LaneState) : LaneState :=
  let v0 := SIMD.add s.v0 s.v1
  let v2 := SIMD.add s.v2 s.v3
  let v1 := SIMD.rotl 13 s.v1
  let v3 := SIMD.rotl 16 s.v3
  let v1 := SIMD.xor v1 v0
  let v3 := SIMD.xor v3 v2
  let v0 := SIMD.rotl 32 v0
  let v2 := SIMD.add v2 v1
  let v0 := SIMD.add v0 v3
  let v1 := SIMD.rotl 17 v1
  let v3 := SIMD.rotl 21 v3
  let v1 := SIMD.xor v1 v2
  let v3 := SIMD.xor v3 v0
  let v2 := SIMD.rotl 32 v2
  ⟨v0, v1, v2, v3⟩

/-- What is done with each of the three blocks. -/
def absorb (s : LaneState) (m : Lanes) : LaneState :=
  let s := { s with v3 := SIMD.xor s.v3 m }.round.round
  { s with v0 := SIMD.xor s.v0 m }

def finish (s : LaneState) : Lanes :=
  let s := { s with v2 := SIMD.xor s.v2 (SIMD.set1 0xff) }.round.round.round.round
  SIMD.xor (SIMD.xor s.v0 s.v1) (SIMD.xor s.v2 s.v3)

def lane (s : LaneState) (i : Fin 4) : State := ⟨s.v0 i, s.v1 i, s.v2 i, s.v3 i⟩

/-- In each lane a vector round is a scalar one. -/
@[simp] theorem lane_round (s : LaneState) (i : Fin 4) : s.round.lane i = (s.lane i).round := rfl

@[simp] theorem lane_absorb (s : LaneState) (m : Lanes) (i : Fin 4) :
    (s.absorb m).lane i = (s.lane i).absorb (m i) := rfl

@[simp] theorem finish_lane (s : LaneState) (i : Fin 4) : s.finish i = (s.lane i).finish := by
  let t := { s with v2 := SIMD.xor s.v2 (SIMD.set1 0xff) }.round.round.round.round
  have ht : t.lane i =
      { s.lane i with v2 := (s.lane i).v2 ^^^ 0xff }.round.round.round.round := by
    simp only [t, lane_round]
    rfl
  change (t.lane i).v0 ^^^ (t.lane i).v1 ^^^ ((t.lane i).v2 ^^^ (t.lane i).v3) = _
  rw [ht, State.finish, ← UInt64.xor_assoc]

end LaneState

def avx_siphash (m0 m1 k0 k1 : Lanes) : Lanes :=
  let s : LaneState := ⟨SIMD.xor (SIMD.set1 0x736f6d6570736575) k0,
    SIMD.xor (SIMD.set1 0x646f72616e646f6d) k1, SIMD.xor (SIMD.set1 0x6c7967656e657261) k0,
    SIMD.xor (SIMD.set1 0x7465646279746573) k1⟩
  let s := s.absorb m0
  let s := s.absorb m1
  let s := s.absorb (SIMD.set1 ((16 : UInt64) <<< 56))
  s.finish

/-- The bytes of a word in memory. -/
def wordBytes (w : UInt64) : Bytes := LittleEndian.encode 8 w.toNat

structure Hasher where
  k0 : UInt64
  k1 : UInt64
  useAvx : Bool

namespace Hasher

def hash128 (h : Hasher) (uid0 uid1 : UInt64) : UInt64 :=
  if h.useAvx then
    avx_siphash (SIMD.set1 uid0) (SIMD.set1 uid1) (SIMD.set1 h.k0) (SIMD.set1 h.k1) 0
  else siphash24Key (wordBytes uid0 ++ wordBytes uid1) h.k0 h.k1

def hash (h : Hasher) (s : Bytes) : UInt64 :=
  if h.useAvx && s.length == 16 then h.hash128 (load64Le s) (load64Le (s.drop 8))
  else siphash24Key s h.k0 h.k1

/-- `siphashTile4` -/
def hashAvx4 (h : Hasher) (uids : Fin 8 → UInt64) : Lanes :=
  let (m0, m1) := SIMD.loadSipHashTile4 uids
  avx_siphash m0 m1 (SIMD.set1 h.k0) (SIMD.set1 h.k1)

end Hasher

/-- A round in the order in which the algorithm states it. -/
def sipRound (s : State) : State :=
  let v0 := s.v0 + s.v1
  let v1 := rotl s.v1 13 ^^^ v0
  let v0 := rotl v0 32
  let v2 := s.v2 + s.v3
  let v3 := rotl s.v3 16 ^^^ v2
  let v0 := v0 + v3
  let v3 := rotl v3 21 ^^^ v0
  let v2 := v2 + v1
  let v1 := rotl v1 17 ^^^ v2
  let v2 := rotl v2 32
  ⟨v0, v1, v2, v3⟩

/-- The message, zeros up to seven bytes behind its last whole word, and its length as a byte. -/
def padded (data : Bytes) (length : Nat) : Bytes :=
  data ++ List.replicate (7 - length % 8) 0 ++ [UInt8.ofNat length]

/-- Eight bytes each, read with the low byte first. -/
def wordsOf : Bytes → List UInt64
  | b0 :: b1 :: b2 :: b3 :: b4 :: b5 :: b6 :: b7 :: data =>
    UInt64.ofNat (LittleEndian.decode [b0, b1, b2, b3, b4, b5, b6, b7]) :: wordsOf data
  | _ => []

def compress (c : Nat) (s : State) (m : UInt64) : State :=
  let s := sipRound^[c] { s with v3 := s.v3 ^^^ m }
  { s with v0 := s.v0 ^^^ m }

/-- SipHash with `c` compression and `d` finalization rounds. -/
def sipHash (c d : Nat) (k0 k1 : UInt64) (data : Bytes) : UInt64 :=
  let s := (wordsOf (padded data data.length)).foldl (compress c) (State.init k0 k1)
  let s := sipRound^[d] { s with v2 := s.v2 ^^^ 0xff }
  s.v0 ^^^ s.v1 ^^^ s.v2 ^^^ s.v3

/-- A byte put above what is there is added to it. -/
theorem toNat_or_byte (low : UInt64) (shift : Nat) (hshift : shift ≤ 56)
    (hlow : low.toNat < 2 ^ shift) (b : UInt8) :
    (low ||| b.toUInt64 <<< UInt64.ofNat shift).toNat = low.toNat + b.toNat * 2 ^ shift := by
  have hb : b.toNat < 256 := b.toNat_lt
  have hpow : 2 ^ shift ≤ 2 ^ 56 := Nat.pow_le_pow_right (by decide) hshift
  have hfit : b.toNat * 2 ^ shift < 2 ^ 64 := by
    calc b.toNat * 2 ^ shift < 256 * 2 ^ shift :=
          Nat.mul_lt_mul_of_pos_right hb (Nat.two_pow_pos shift)
      _ ≤ 256 * 2 ^ 56 := Nat.mul_le_mul_left 256 hpow
      _ = 2 ^ 64 := by decide
  have hmod : (UInt64.ofNat shift).toNat % 64 = shift := by
    rw [UInt64.toNat_ofNat', Nat.mod_eq_of_lt (by omega), Nat.mod_eq_of_lt (by omega)]
  rw [UInt64.toNat_or, UInt64.toNat_shiftLeft, hmod, UInt8.toNat_toUInt64, Nat.shiftLeft_eq,
    Nat.mod_eq_of_lt hfit, Nat.or_comm, ← Nat.shiftLeft_eq, ← Nat.shiftLeft_add_eq_or_of_lt hlow,
    Nat.add_comm]

theorem load64Le_eq (b0 b1 b2 b3 b4 b5 b6 b7 : UInt8) :
    load64Le [b0, b1, b2, b3, b4, b5, b6, b7] =
      UInt64.ofNat (decode [b0, b1, b2, b3, b4, b5, b6, b7]) := by
  have bound : ∀ b : UInt8, b.toNat < 256 := UInt8.toNat_lt
  have h0 : b0.toUInt64.toNat = b0.toNat := UInt8.toNat_toUInt64 b0
  have h1 := toNat_or_byte _ 8 (by decide) (h0 ▸ bound b0) b1
  have h2 := toNat_or_byte _ 16 (by decide) (by rw [h1]; grind) b2
  have h3 := toNat_or_byte _ 24 (by decide) (by rw [h2]; grind) b3
  have h4 := toNat_or_byte _ 32 (by decide) (by rw [h3]; grind) b4
  have h5 := toNat_or_byte _ 40 (by decide) (by rw [h4]; grind) b5
  have h6 := toNat_or_byte _ 48 (by decide) (by rw [h5]; grind) b6
  have h7 := toNat_or_byte _ 56 (by decide) (by rw [h6]; grind) b7
  have hdecode := decode_lt [b0, b1, b2, b3, b4, b5, b6, b7]
  change _ < 256 ^ 8 at hdecode
  apply UInt64.toNat_inj.mp
  rw [UInt64.toNat_ofNat', Nat.mod_eq_of_lt (by omega)]
  refine h7.trans ?_
  simp only [decode, foldr_cons, foldr_nil]
  omega

theorem byteAt_outside {data : Bytes} {i : Nat} (h : data.length ≤ i) : byteAt data i = 0 := by
  rw [byteAt, getD_eq_getElem?_getD, List.getElem?_eq_none h]
  rfl

theorem ite_or {p : Prop} [Decidable p] {m x : UInt64} (h : ¬ p → x = 0) :
    (if p then m ||| x else m) = m ||| x := by
  split
  · rfl
  · rw [h ‹_›, UInt64.or_zero]

/-- The switch puts the bytes that are left under the length. -/
theorem lastWord_eq {length : Nat} {data : Bytes} (hlength : length % 8 = data.length) :
    lastWord length data =
      byteAt data 0 ||| byteAt data 1 <<< 8 ||| byteAt data 2 <<< 16 ||| byteAt data 3 <<< 24 |||
        byteAt data 4 <<< 32 ||| byteAt data 5 <<< 40 ||| byteAt data 6 <<< 48 |||
        UInt64.ofNat length <<< 56 := by
  have outside : ∀ {i}, ¬ i + 1 ≤ length % 8 → ∀ shift, byteAt data i <<< shift = 0 := by
    intro i hi shift
    rw [byteAt_outside (by omega), UInt64.zero_shiftLeft]
  have low : ¬ 1 ≤ length % 8 → byteAt data 0 = 0 := fun h => byteAt_outside (by omega)
  simp only [lastWord]
  rw [ite_or fun h => outside h 48, ite_or fun h => outside h 40, ite_or fun h => outside h 32,
    ite_or fun h => outside h 24, ite_or fun h => outside h 16, ite_or fun h => outside h 8,
    ite_or low]
  generalize UInt64.ofNat length <<< 56 = top
  generalize byteAt data 1 <<< 8 = b1, byteAt data 2 <<< 16 = b2, byteAt data 3 <<< 24 = b3,
    byteAt data 4 <<< 32 = b4, byteAt data 5 <<< 40 = b5, byteAt data 6 <<< 48 = b6
  ac_rfl

/-- Of the length only the low byte stays. -/
theorem length_shift (length : Nat) :
    (UInt8.ofNat length).toUInt64 <<< 56 = UInt64.ofNat length <<< 56 := by
  apply UInt64.toNat_inj.mp
  simp only [UInt64.toNat_shiftLeft, UInt8.toNat_toUInt64, UInt8.toNat_ofNat', UInt64.toNat_ofNat',
    Nat.shiftLeft_eq]
  change _ * 2 ^ 56 % 2 ^ 64 = _ * 2 ^ 56 % 2 ^ 64
  omega

/-- What is left, padded, is one more word. -/
theorem wordsOf_padded {length : Nat} {data : Bytes} (hshort : data.length < 8)
    (hlength : length % 8 = data.length) :
    wordsOf (padded data length) = [lastWord length data] := by
  rw [padded, hlength, lastWord_eq hlength, ← length_shift]
  rcases data with _ | ⟨b0, _ | ⟨b1, _ | ⟨b2, _ | ⟨b3, _ | ⟨b4, _ | ⟨b5, _ | ⟨b6, _ | _⟩⟩⟩⟩⟩⟩⟩
  case cons.cons.cons.cons.cons.cons.cons.cons =>
    simp only [length_cons] at hshort
    omega
  all_goals exact congrArg (· :: []) (load64Le_eq ..).symm

/-- The loop absorbs the whole words in front of the last one. -/
theorem absorbWords_spec (length : Nat) (s : State) (data : Bytes)
    (h : length % 8 = data.length % 8) :
    (wordsOf (padded data length)).foldl (compress 2) s =
      ((absorbWords s data).1).absorb (lastWord length (absorbWords s data).2) := by
  fun_induction absorbWords s data with
  | case1 s b0 b1 b2 b3 b4 b5 b6 b7 data ih =>
    simp only [length_cons] at h
    rw [← ih (by omega), load64Le_eq]
    rfl
  | case2 s data hshort =>
    have hlength : data.length < 8 := by
      rcases data with _ | ⟨b0, _ | ⟨b1, _ | ⟨b2, _ | ⟨b3, _ | ⟨b4, _ | ⟨b5, _ | ⟨b6, ⟨data⟩⟩⟩⟩⟩⟩⟩⟩
      case cons.cons.cons.cons.cons.cons.cons.cons => exact (hshort _ _ _ _ _ _ _ _ _ rfl).elim
      all_goals simp
    rw [wordsOf_padded hlength (h.trans (Nat.mod_eq_of_lt hlength))]
    rfl

/-- The scalar program computes SipHash-2-4. -/
theorem siphash24Key_eq (data : Bytes) (k0 k1 : UInt64) :
    siphash24Key data k0 k1 = sipHash 2 4 k0 k1 data := by
  rw [sipHash, absorbWords_spec data.length _ data rfl]
  rfl

/-- In each lane the vector program absorbs the two words and the length. -/
theorem avx_siphash_lane (m0 m1 k0 k1 : Lanes) (i : Fin 4) :
    avx_siphash m0 m1 k0 k1 i =
      ((((State.init (k0 i) (k1 i)).absorb (m0 i)).absorb (m1 i)).absorb
        ((16 : UInt64) <<< 56)).finish := by
  simp only [avx_siphash, LaneState.finish_lane, LaneState.lane_absorb]
  rfl

theorem exists_bytes {m : Bytes} (h : m.length = 8) :
    ∃ b0 b1 b2 b3 b4 b5 b6 b7, m = [b0, b1, b2, b3, b4, b5, b6, b7] := by
  rcases m with _ | ⟨b0, _ | ⟨b1, _ | ⟨b2, _ | ⟨b3, _ | ⟨b4, _ | ⟨b5, _ | ⟨b6, _ | ⟨b7, _ |
    _⟩⟩⟩⟩⟩⟩⟩⟩
  case cons.cons.cons.cons.cons.cons.cons.cons.nil => exact ⟨_, _, _, _, _, _, _, _, rfl⟩
  all_goals
    simp only [length_cons, length_nil] at h
    omega

theorem load64Le_wordBytes (w : UInt64) : load64Le (wordBytes w) = w := by
  obtain ⟨b0, b1, b2, b3, b4, b5, b6, b7, hbytes⟩ :=
    exists_bytes (length_encode 8 w.toNat)
  rw [wordBytes, hbytes, load64Le_eq, ← hbytes, decode_encode,
    Nat.mod_eq_of_lt (show w.toNat < 256 ^ 8 from w.toNat_lt), UInt64.ofNat_toNat]

/-- In each lane the vector program is the scalar one on the bytes of the two words. -/
theorem avx_siphash_eq {m0 m1 : Bytes} (h0 : m0.length = 8) (h1 : m1.length = 8)
    {w0 w1 k0 k1 : Lanes} {i : Fin 4} (hw0 : w0 i = load64Le m0) (hw1 : w1 i = load64Le m1) :
    avx_siphash w0 w1 k0 k1 i = sipHash 2 4 (k0 i) (k1 i) (m0 ++ m1) := by
  rw [avx_siphash_lane, hw0, hw1, ← siphash24Key_eq]
  obtain ⟨a0, a1, a2, a3, a4, a5, a6, a7, rfl⟩ := exists_bytes h0
  obtain ⟨b0, b1, b2, b3, b4, b5, b6, b7, rfl⟩ := exists_bytes h1
  have hlast : lastWord 16 [] = (16 : UInt64) <<< 56 := by decide
  rw [← hlast]
  rfl

/-- Both paths compute SipHash-2-4, and the four-way load hashes its words two by two. -/
theorem hash_exact (k0 k1 : UInt64) :
    (∀ (useAvx : Bool) (data : Bytes),
      (Hasher.mk k0 k1 useAvx).hash data = sipHash 2 4 k0 k1 data) ∧
    ∀ (useAvx : Bool) (uids : Fin 8 → UInt64) (i : Fin 4),
      (Hasher.mk k0 k1 useAvx).hashAvx4 uids i = sipHash 2 4 k0 k1
        (wordBytes (uids ⟨2 * i, by omega⟩) ++ wordBytes (uids ⟨2 * i + 1, by omega⟩)) := by
  constructor
  · intro useAvx data
    by_cases hvector : useAvx && data.length == 16
    · rw [Hasher.hash, if_pos hvector]
      simp only [Bool.and_eq_true, beq_iff_eq] at hvector
      obtain ⟨rfl, hlength⟩ := hvector
      have htake : (data.take 8).length = 8 := by rw [length_take]; omega
      have hdrop : (data.drop 8).length = 8 := by rw [length_drop]; omega
      have hload : load64Le data = load64Le (data.take 8) := by
        obtain ⟨b0, b1, b2, b3, b4, b5, b6, b7, hfirst⟩ := exists_bytes htake
        rw [hfirst, ← take_append_drop 8 data, hfirst]
        rfl
      refine (avx_siphash_eq htake hdrop hload rfl).trans ?_
      rw [take_append_drop]
      rfl
    · rw [Hasher.hash, if_neg hvector]
      exact siphash24Key_eq data k0 k1
  · intro useAvx uids i
    have hlength : ∀ w, (wordBytes w).length = 8 := fun w => length_encode 8 w.toNat
    have hlanes : i = 0 ∨ i = 1 ∨ i = 2 ∨ i = 3 := by omega
    refine avx_siphash_eq (hlength _) (hlength _) ?_ ?_ <;>
      rw [load64Le_wordBytes] <;> obtain rfl | rfl | rfl | rfl := hlanes <;> rfl

end JobSipHash
