import OddBuilder.AiPkg.Consistency

/-!
# Termination of the consistency check

A call returns when it has a finite derivation: every turn of a loop and every
recursive call is a step of it. The sizes of tree heads are 64-bit words, and above
`2 ^ 63` leaves the doubling loop is caught at zero.
-/

namespace JobAiPkg

variable {H : Type}
variable {n r oldSize : Nat}

/-- The loop `while (k * 2 < n) k *= 2` comes from `k` to an end with a result. -/
inductive DoublingEnds (n : Nat) : Nat → Nat → Prop where
  | done {k : Nat} : ¬k * 2 % 2 ^ 64 < n → DoublingEnds n k k
  | turn {k r : Nat} : k * 2 % 2 ^ 64 < n → DoublingEnds n (k * 2 % 2 ^ 64) r → DoublingEnds n k r

/-- A call of `verifySubproof` returns; the constructors are the branches of the source. -/
inductive SubproofReturns (h : Hashing H) (oldSize : Nat) (oldRoot : H) :
    Nat → Nat → Bool → List H → Subproof H → Prop where
  | known {m : Nat} {proof : List H} :
    SubproofReturns h oldSize oldRoot m m true proof ((oldRoot, oldRoot), proof)
  | exhausted {m : Nat} : SubproofReturns h oldSize oldRoot m m false [] ((h.zero, h.zero), [])
  | hash {m : Nat} {x : H} {proof : List H} :
    SubproofReturns h oldSize oldRoot m m false (x :: proof) ((x, x), proof)
  | left {m n k : Nat} {b : Bool} {proof : List H} {r : Subproof H} : m ≠ n →
    DoublingEnds n 1 k → m ≤ k → SubproofReturns h oldSize oldRoot m k b proof r →
    SubproofReturns h oldSize oldRoot m n b proof
      (closeLeft h (if b && m == oldSize then some oldRoot else none) r)
  | right {m n k : Nat} {b : Bool} {proof : List H} {r : Subproof H} : m ≠ n →
    DoublingEnds n 1 k → k < m → SubproofReturns h oldSize oldRoot (m - k) (n - k) false proof r →
    SubproofReturns h oldSize oldRoot m n b proof (closeRight h r)

/-- A call of `verify` returns with an answer. -/
inductive VerifyReturns [DecidableEq H] (h : Hashing H) (oldSize : Nat) (oldRoot : H)
    (newSize : Nat) (newRoot : H) (proof : List H) : Bool → Prop where
  | refused : oldSize = 0 ∨ oldSize > newSize →
    VerifyReturns h oldSize oldRoot newSize newRoot proof false
  | same : ¬(oldSize = 0 ∨ oldSize > newSize) → oldSize = newSize →
    VerifyReturns h oldSize oldRoot newSize newRoot proof
      (proof.isEmpty && decide (oldRoot = newRoot))
  | compared {r : H × H} {unread : List H} : ¬(oldSize = 0 ∨ oldSize > newSize) →
    oldSize ≠ newSize → SubproofReturns h oldSize oldRoot oldSize newSize true proof (r, unread) →
    VerifyReturns h oldSize oldRoot newSize newRoot proof
      (unread.isEmpty && (decide (r.1 = oldRoot) && decide (r.2 = newRoot)))

theorem doublingEnds_of_doubleBelow (turns : Nat) :
    ∀ k, doubleBelow turns n k = some r → DoublingEnds n k r := by
  induction turns with
  | zero =>
    intro k h
    cases h
  | succ turns ih =>
    intro k h
    rw [doubleBelow] at h
    split at h
    · next hless => exact .turn hless (ih _ h)
    · next hless =>
      rw [← Option.some.inj h]
      exact .done hless

theorem doublingEnds_split (h2 : 2 ≤ n) (hn : n ≤ 2 ^ 63) :
    DoublingEnds n 1 (MerkleTree.split n) :=
  doublingEnds_of_doubleBelow 65 1 (largestPowerOfTwoLessThan_eq h2 hn)

theorem subproofReturns_of_some (h : Hashing H) (oldSize : Nat) (oldRoot : H) (levels : Nat) :
    ∀ (m n : Nat) (b : Bool) (proof : List H) (r : Subproof H),
      verifySubproof h oldSize oldRoot levels m n b proof = some r →
        SubproofReturns h oldSize oldRoot m n b proof r := by
  induction levels with
  | zero =>
    intro m n b proof r hr
    cases hr
  | succ levels ih =>
    intro m n b proof r hr
    rw [verifySubproof.eq_def] at hr
    dsimp only at hr
    split at hr
    · next hsame =>
      subst hsame
      cases b with
      | true =>
        rw [← Option.some.inj hr]
        exact .known
      | false =>
        cases proof with
        | nil =>
          rw [← Option.some.inj hr]
          exact .exhausted
        | cons x proof =>
          rw [← Option.some.inj hr]
          exact .hash
    · next hne =>
      obtain ⟨k, hk, hr⟩ := Option.bind_eq_some_iff.mp hr
      have hends := doublingEnds_of_doubleBelow 65 1 hk
      split at hr
      · next hle =>
        obtain ⟨inner, hinner, hclose⟩ := Option.bind_eq_some_iff.mp hr
        rw [← Option.some.inj hclose]
        exact .left hne hends hle (ih _ _ _ _ _ hinner)
      · next hgt =>
        obtain ⟨inner, hinner, hclose⟩ := Option.bind_eq_some_iff.mp hr
        rw [← Option.some.inj hclose]
        exact .right hne hends (Nat.lt_of_not_le hgt) (ih _ _ _ _ _ hinner)

/-- Up to `2 ^ 63` leaves the recursion returns, whatever the proof. -/
theorem exists_subproofReturns (h : Hashing H) {newSize : Nat} (oldRoot : H) (proof : List H)
    (hpos : 0 < oldSize) (hle : oldSize ≤ newSize) (hnew : newSize ≤ 2 ^ 63) :
    ∃ r, SubproofReturns h oldSize oldRoot oldSize newSize true proof r := by
  have hlength : (List.replicate newSize h.zero).length = newSize := List.length_replicate
  obtain ⟨r, hr⟩ := verifySubproof_reads h oldSize oldRoot maxLevels oldSize 63
    (List.replicate newSize h.zero) true proof hpos (by rw [hlength]; exact hle)
    (by rw [hlength]; exact hnew) (by decide) (by decide)
  rw [hlength] at hr
  exact ⟨_, subproofReturns_of_some h oldSize oldRoot maxLevels _ _ _ _ _ hr⟩

/-- The words that the loop passes: powers of two, and zero behind the last of them. -/
def Doubled (k : Nat) : Prop := k = 0 ∨ ∃ i ≤ 63, k = 2 ^ i

theorem Doubled.next {k : Nat} (h : Doubled k) : Doubled (k * 2 % 2 ^ 64) ∧ k * 2 % 2 ^ 64 ≤ 2 ^ 63 := by
  obtain rfl | ⟨i, hi, rfl⟩ := h
  · exact ⟨Or.inl rfl, Nat.zero_le _⟩
  · rw [← Nat.pow_succ]
    obtain hlast | hless := Nat.eq_or_lt_of_le hi
    · rw [hlast]
      exact ⟨Or.inl rfl, Nat.zero_le _⟩
    · have hword : 2 ^ (i + 1) < 2 ^ 64 := Nat.pow_lt_pow_right (by decide) (by omega)
      rw [Nat.mod_eq_of_lt hword]
      exact ⟨Or.inr ⟨i + 1, hless, rfl⟩, Nat.pow_le_pow_right (by decide) hless⟩

/-- No word that the loop passes is large enough to end it. -/
theorem not_doublingEnds {k : Nat} (hn : 2 ^ 63 < n) (hk : Doubled k) : ¬DoublingEnds n k r := by
  intro h
  induction h with
  | done hstop => exact hstop (lt_of_le_of_lt hk.next.2 hn)
  | turn _ _ ih => exact ih hk.next.1

theorem not_doublingEnds_one (hn : 2 ^ 63 < n) : ¬DoublingEnds n 1 r :=
  not_doublingEnds hn (Or.inr ⟨0, Nat.zero_le _, rfl⟩)

theorem not_subproofReturns (h : Hashing H) {m : Nat} {oldRoot : H} {b : Bool} {proof : List H}
    {r : Subproof H} (hn : 2 ^ 63 < n) (hne : m ≠ n) :
    ¬SubproofReturns h oldSize oldRoot m n b proof r := by
  intro hr
  cases hr with
  | known => exact hne rfl
  | exhausted => exact hne rfl
  | hash => exact hne rfl
  | left _ hends _ _ => exact not_doublingEnds_one hn hends
  | right _ hends _ _ => exact not_doublingEnds_one hn hends

theorem not_verifyReturns [DecidableEq H] (h : Hashing H) {newSize : Nat} {oldRoot newRoot : H}
    {proof : List H} {answer : Bool} (hpos : 0 < oldSize) (hlt : oldSize < newSize)
    (hnew : 2 ^ 63 < newSize) : ¬VerifyReturns h oldSize oldRoot newSize newRoot proof answer := by
  intro hanswer
  cases hanswer with
  | refused hrefused => omega
  | same _ hsame => omega
  | compared _ hne hr => exact not_subproofReturns h hnew hne hr

theorem largestPowerOfTwo_spec (h2 : 2 ≤ n) :
    (∃ k, DoublingEnds n 1 k ∧ (∃ i, k = 2 ^ i) ∧ k < n ∧ n ≤ 2 * k) ↔ n ≤ 2 ^ 63 := by
  constructor
  · rintro ⟨k, hends, -⟩
    by_contra hlarge
    exact not_doublingEnds_one (by omega) hends
  · intro hn
    exact ⟨_, doublingEnds_split h2 hn, ⟨_, rfl⟩, MerkleTree.split_lt h2, MerkleTree.le_two_split h2⟩

/-- The check returns exactly when the sizes need no recursion or the new tree has at most `2 ^ 63`
leaves; for these sizes, and no larger ones, the loop finds the place of the split. -/
theorem verify_returns_iff [DecidableEq H] (h : Hashing H) (oldSize newSize : UInt64)
    (oldRoot newRoot : H) (proof : List H) :
    ((∃ answer, VerifyReturns h oldSize.toNat oldRoot newSize.toNat newRoot proof answer) ↔
      oldSize = 0 ∨ newSize ≤ oldSize ∨ newSize.toNat ≤ 2 ^ 63) ∧
    ∀ n : UInt64, 2 ≤ n → ((∃ k, DoublingEnds n.toNat 1 k ∧ (∃ i, k = 2 ^ i) ∧ k < n.toNat ∧
      n.toNat ≤ 2 * k) ↔ n.toNat ≤ 2 ^ 63) := by
  have hzero : (0 : UInt64).toNat = 0 := rfl
  refine ⟨?_, fun n hn => largestPowerOfTwo_spec hn⟩
  rw [← UInt64.toNat_inj, UInt64.le_iff_toNat_le]
  constructor
  · rintro ⟨answer, hanswer⟩
    by_contra hlarge
    exact not_verifyReturns h (by omega) (by omega) (by omega) hanswer
  · intro hsizes
    by_cases hrefused : oldSize.toNat = 0 ∨ oldSize.toNat > newSize.toNat
    · exact ⟨_, .refused hrefused⟩
    by_cases hsame : oldSize.toNat = newSize.toNat
    · exact ⟨_, .same hrefused hsame⟩
    have hpos : 0 < oldSize.toNat := by omega
    have hle : oldSize.toNat ≤ newSize.toNat := by omega
    obtain ⟨⟨r, unread⟩, hr⟩ := exists_subproofReturns h oldRoot proof hpos hle (by omega)
    exact ⟨_, .compared hrefused hsame hr⟩

/-- An old tree of one leaf and a new one of one more than `2 ^ 63`. -/
theorem verify_runs_on : ¬∃ answer, VerifyReturns pairHashing (1 : UInt64).toNat 0
    (9223372036854775809 : UInt64).toNat 0 [] answer := by
  rintro ⟨answer, hanswer⟩
  exact not_verifyReturns pairHashing (by decide) (by decide) (by decide) hanswer

end JobAiPkg
