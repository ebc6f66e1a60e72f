import Mathlib.Data.Nat.Bitwise

/-!
# Rounding to multiples, and doing it with masks

The greatest multiple below a number and the least one above it, each by the
order property that defines it. For a power of two both are what a word
computes by clearing its low bits; the word width is a parameter.
-/

namespace Alignment

variable {a v : Nat}

/-- The greatest multiple of `a` that is at most `v`. -/
def down (v a : Nat) : Nat := v - v % a

/-- The least multiple of `a` that is at least `v`, for a positive `a`. -/
def up (v a : Nat) : Nat := down (v + (a - 1)) a

theorem dvd_down (v a : Nat) : a ∣ down v a := Nat.dvd_sub_mod v

theorem down_le (v a : Nat) : down v a ≤ v := Nat.sub_le _ _

theorem lt_down_add (ha : 0 < a) (v : Nat) : v < down v a + a := by
  have := Nat.mod_lt v ha
  unfold down
  omega

theorem le_down_iff {m : Nat} (ha : 0 < a) (hm : a ∣ m) (v : Nat) : m ≤ down v a ↔ m ≤ v := by
  constructor
  · intro h
    exact h.trans (down_le v a)
  · intro h
    obtain ⟨c, rfl⟩ := hm
    obtain ⟨d, hd⟩ := dvd_down v a
    have hlt := lt_down_add ha v
    rw [hd] at hlt ⊢
    have hcd : a * c < a * (d + 1) := by
      exact h.trans_lt hlt
    exact Nat.mul_le_mul_left a (Nat.lt_succ_iff.1 (Nat.lt_of_mul_lt_mul_left hcd))

theorem dvd_up (v a : Nat) : a ∣ up v a := dvd_down _ a

theorem le_up (ha : 0 < a) (v : Nat) : v ≤ up v a := by
  have := lt_down_add ha (v + (a - 1))
  unfold up
  omega

theorem up_lt_add (ha : 0 < a) (v : Nat) : up v a < v + a := by
  have := down_le (v + (a - 1)) a
  unfold up
  omega

theorem up_le_iff {m : Nat} (ha : 0 < a) (hm : a ∣ m) (v : Nat) : up v a ≤ m ↔ v ≤ m := by
  constructor
  · intro h
    exact (le_up ha v).trans h
  · intro h
    by_contra hlt
    have hstep : m + a ≤ up v a := by
      obtain ⟨c, rfl⟩ := hm
      obtain ⟨d, hd⟩ := dvd_up v a
      rw [hd] at hlt ⊢
      have hcd : c < d := Nat.lt_of_mul_lt_mul_left (Nat.not_le.1 hlt)
      calc a * c + a = a * (c + 1) := by rw [Nat.mul_add, Nat.mul_one]
        _ ≤ a * d := Nat.mul_le_mul_left a hcd
    have := up_lt_add ha v
    omega

theorem down_of_dvd (h : a ∣ v) : down v a = v := by
  rw [down, Nat.mod_eq_zero_of_dvd h, Nat.sub_zero]

theorem up_of_dvd (ha : 0 < a) (h : a ∣ v) : up v a = v :=
  Nat.le_antisymm ((up_le_iff ha h v).2 (Nat.le_refl v)) (le_up ha v)

theorem down_mono {w : Nat} (ha : 0 < a) (h : v ≤ w) : down v a ≤ down w a :=
  (le_down_iff ha (dvd_down v a) w).2 ((down_le v a).trans h)

section Blocks

theorem down_eq_mul_div (v a : Nat) : down v a = a * (v / a) := by
  have := Nat.div_add_mod v a
  unfold down
  omega

theorem down_eq_iff {a : Nat} (ha : 0 < a) (v w : Nat) : down v a = down w a ↔ v / a = w / a := by
  rw [down_eq_mul_div, down_eq_mul_div, Nat.mul_right_inj (Nat.ne_of_gt ha)]

theorem lt_iff_down_add_le {a m : Nat} (ha : 0 < a) (hm : a ∣ m) (v : Nat) :
    v < m ↔ down v a + a ≤ m := by
  have hblock := lt_down_add ha v
  constructor
  · intro h
    obtain ⟨c, rfl⟩ := hm
    have hdiv : v / a < c := by
      rw [Nat.div_lt_iff_lt_mul ha, Nat.mul_comm]
      exact h
    calc down v a + a = a * (v / a + 1) := by rw [down_eq_mul_div, Nat.mul_add, Nat.mul_one]
      _ ≤ a * c := Nat.mul_le_mul_left a hdiv
  · intro h
    omega

/-- The blocks that meet `[first, last)` together. -/
theorem exists_block_iff {a first last : Nat} (ha : 0 < a) (h : first < last) (x : Nat) :
    (∃ y, first ≤ y ∧ y < last ∧ x / a = y / a) ↔ down first a ≤ x ∧ x < up last a := by
  constructor
  · rintro ⟨y, hfirst, hlast, hblock⟩
    have hsame := (down_eq_iff ha x y).2 hblock
    constructor
    · calc down first a ≤ down y a := down_mono ha hfirst
        _ = down x a := hsame.symm
        _ ≤ x := down_le x a
    · have hend := (lt_iff_down_add_le ha (dvd_up last a) y).1 (hlast.trans_le (le_up ha last))
      apply (lt_iff_down_add_le ha (dvd_up last a) x).2
      rwa [hsame]
  · rintro ⟨hlow⟩
    by_cases hbefore : x < first
    · refine ⟨first, Nat.le_refl _, h, (down_eq_iff ha _ _).1 ?_⟩
      apply Nat.le_antisymm
      · exact down_mono ha hbefore.le
      · exact (le_down_iff ha (dvd_down first a) x).2 hlow
    by_cases hbehind : last ≤ x
    · refine ⟨last - 1, by omega, by omega, (down_eq_iff ha _ _).1 ?_⟩
      apply Nat.le_antisymm
      · have hend := lt_down_add ha (last - 1)
        have hdvd : a ∣ down (last - 1) a + a := Nat.dvd_add (dvd_down _ a) (Nat.dvd_refl a)
        have hup := (up_le_iff ha hdvd last).2 (by omega)
        have hx := (lt_iff_down_add_le ha hdvd x).1 (by omega)
        omega
      · exact down_mono ha (by omega)
    · exact ⟨x, by omega, by omega, rfl⟩

/-- The blocks that lie within `[first, last)` together. -/
theorem forall_block_iff {a : Nat} (ha : 0 < a) (first last x : Nat) :
    (∀ y, x / a = y / a → first ≤ y ∧ y < last) ↔ up first a ≤ x ∧ x < down last a := by
  constructor
  · intro h
    have hblock := lt_down_add ha x
    have hstart := h (down x a) ((down_eq_iff ha _ _).1 (down_of_dvd (dvd_down x a)).symm)
    have hsame : down (down x a + (a - 1)) a = down x a := by
      apply Nat.le_antisymm
      · have := (lt_iff_down_add_le ha (Nat.dvd_add (dvd_down x a) (Nat.dvd_refl a))
          (down x a + (a - 1))).1 (by omega)
        omega
      · exact (le_down_iff ha (dvd_down x a) _).2 (Nat.le_add_right _ _)
    have hend := h (down x a + (a - 1)) ((down_eq_iff ha _ _).1 hsame.symm)
    constructor
    · exact ((up_le_iff ha (dvd_down x a) first).2 hstart.1).trans (down_le x a)
    · have hle : down x a + a ≤ last := by omega
      have hdvd : a ∣ down x a + a := Nat.dvd_add (dvd_down x a) (Nat.dvd_refl a)
      exact hblock.trans_le ((le_down_iff ha hdvd last).2 hle)
  · rintro ⟨hlow, hhigh⟩ y hy
    have hsame := (down_eq_iff ha x y).2 hy
    have hlow' := (le_down_iff ha (dvd_up first a) x).2 hlow
    have hhigh' := (lt_iff_down_add_le ha (dvd_down last a) x).1 hhigh
    have hfirst := le_up ha first
    have hlast := down_le last a
    have hy' := down_le y a
    have hy'' := lt_down_add ha y
    constructor
    · omega
    · omega

end Blocks

section Masks

/-- Clearing the low bits of a word rounds it down. -/
theorem and_low_cleared {width v : Nat} (hv : v < 2 ^ width) (k : Nat) :
    v &&& ((2 ^ width - 1) ^^^ (2 ^ k - 1)) = down v (2 ^ k) := by
  have hsplit : v - v % 2 ^ k = 2 ^ k * (v / 2 ^ k) := by
    have := Nat.div_add_mod v (2 ^ k)
    omega
  rw [Nat.and_xor_distrib_left, Nat.and_two_pow_sub_one_eq_mod, Nat.mod_eq_of_lt hv, down, hsplit]
  apply Nat.eq_of_testBit_eq
  intro i
  rw [Nat.testBit_two_pow_mul, Nat.testBit_div_two_pow]
  by_cases hi : i < k
  · simp [hi]
  · have hle : k ≤ i := Nat.not_lt.1 hi
    simp [hi, hle]

theorem dvd_two_pow {a width : Nat} (ha : a.isPowerOfTwo) (h : a ≤ 2 ^ width) : a ∣ 2 ^ width := by
  obtain ⟨k, rfl⟩ := ha
  exact Nat.pow_dvd_pow 2 ((Nat.pow_le_pow_iff_right (by decide)).1 h)

theorem dvd_or_dvd {a b : Nat} (ha : a.isPowerOfTwo) (hb : b.isPowerOfTwo) : a ∣ b ∨ b ∣ a := by
  obtain ⟨k, rfl⟩ := ha
  obtain ⟨l, rfl⟩ := hb
  exact (Nat.le_total k l).imp (Nat.pow_dvd_pow 2) (Nat.pow_dvd_pow 2)

/-- Rounding up to one power of two keeps the multiples of another. -/
theorem dvd_up_of_dvd {a b v : Nat} (ha : a.isPowerOfTwo) (hb : b.isPowerOfTwo) (h : b ∣ v) :
    b ∣ up v a := by
  rcases dvd_or_dvd ha hb with hab | hba
  · rwa [up_of_dvd (Nat.pos_of_isPowerOfTwo ha) (hab.trans h)]
  · exact hba.trans (dvd_up v a)

/-- Where the sum before the mask leaves the word, so does the rounded value. -/
theorem two_pow_le_up {a v width : Nat} (ha : a.isPowerOfTwo) (hv : 0 < v)
    (h : 2 ^ width ≤ v + (a - 1)) : 2 ^ width ≤ up v a := by
  have hpos := Nat.pos_of_isPowerOfTwo ha
  by_cases hle : a ≤ 2 ^ width
  · exact (le_down_iff hpos (dvd_two_pow ha hle) _).2 h
  · have hup : a ≤ up v a := Nat.le_of_dvd (hv.trans_le (le_up hpos v)) (dvd_up v a)
    omega

end Masks

end Alignment
