import Mathlib.Algebra.Order.Group.Nat
import Mathlib.Tactic.Ring

/-!
# Little-endian numbers

A number of fixed width as a list of bytes, low byte first.
-/

namespace LittleEndian

/-- The low `width` bytes of a number. -/
def encode : Nat → Nat → List UInt8
  | 0, _ => []
  | width + 1, value => UInt8.ofNat (value % 256) :: encode width (value / 256)

def decode (bytes : List UInt8) : Nat := bytes.foldr (fun b value => value * 256 + b.toNat) 0

@[simp] theorem length_encode (width value : Nat) : (encode width value).length = width := by
  induction width generalizing value with
  | zero => rfl
  | succ width ih => simp [encode, ih]

/-- Reading the bytes back gives the number up to the width. -/
theorem decode_encode (width value : Nat) : decode (encode width value) = value % 256 ^ width := by
  induction width generalizing value with
  | zero => simp [encode, decode, Nat.mod_one]
  | succ width ih =>
    have tail := ih (value / 256)
    have low : (UInt8.ofNat (value % 256)).toNat = value % 256 := by
      exact Nat.mod_eq_of_lt (Nat.mod_lt _ (by decide))
    simp only [decode, encode, List.foldr_cons, low] at tail ⊢
    rw [tail, Nat.pow_succ', Nat.mod_mul]
    ring

theorem decode_lt (bytes : List UInt8) : decode bytes < 256 ^ bytes.length := by
  induction bytes with
  | nil => decide
  | cons b bytes ih =>
    have hb : b.toNat < 256 := b.toNat_lt
    simp only [decode, List.foldr_cons, List.length_cons] at ih ⊢
    omega

theorem encode_decode (bytes : List UInt8) : encode bytes.length (decode bytes) = bytes := by
  induction bytes with
  | nil => rfl
  | cons b bytes ih =>
    have hb : b.toNat < 256 := b.toNat_lt
    have hvalue : decode (b :: bytes) = decode bytes * 256 + b.toNat := rfl
    have hlow : decode (b :: bytes) % 256 = b.toNat := by omega
    have hhigh : decode (b :: bytes) / 256 = decode bytes := by omega
    rw [List.length_cons, encode, hlow, hhigh, ih, UInt8.ofNat_toNat]

end LittleEndian
