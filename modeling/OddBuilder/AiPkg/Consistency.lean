import OddBuilder.AiPkg.Merkle

/-!
# Consistency proofs

`verify` recomputes an old and a new root along one recursion that reads the
proof from front to back; the shared index of the source is the list of hashes
not yet read. A left step under the flag answers with the trusted old root
instead of the recomputed one, which is right only when the recursion ends at
the boundary of the old tree. Which pairs of sizes that leaves open, and that
honest proofs pass for all pairs, is what this module shows.
-/

namespace JobAiPkg

open MerkleTree List

variable {H : Type}

/-- Recomputed old and new hash of a subtree, and the part of the proof not yet read. -/
abbrev Subproof (H : Type) : Type := (H × H) × List H

/-- End of a left step: read the hash of the right part. `trusted` is set when the old root is
to be kept instead of the recomputed hash. -/
def closeLeft (h : Hashing H) (trusted : Option H) : Subproof H → Subproof H
  | (_, []) => ((h.zero, h.zero), [])
  | ((oldLeft, newLeft), right :: proof) =>
    ((trusted.getD oldLeft, h.nodeHash newLeft right), proof)

/-- End of a right step: read the hash of the left part. -/
def closeRight (h : Hashing H) : Subproof H → Subproof H
  | (_, []) => ((h.zero, h.zero), [])
  | ((oldRight, newRight), left :: proof) =>
    ((h.nodeHash left oldRight, h.nodeHash left newRight), proof)

def verifySubproof (h : Hashing H) (oldSize : Nat) (oldRoot : H) :
    Nat → Nat → Nat → Bool → List H → Option (Subproof H)
  | 0, _, _, _, _ => none
  | levels + 1, m, n, b, proof =>
    if m = n then
      if b then some ((oldRoot, oldRoot), proof)
      else
        match proof with
        | [] => some ((h.zero, h.zero), [])
        | x :: proof => some ((x, x), proof)
    else do
      let k ← largestPowerOfTwoLessThan n
      if m ≤ k then
        let left ← verifySubproof h oldSize oldRoot levels m k b proof
        some (closeLeft h (if b && m == oldSize then some oldRoot else none) left)
      else
        let right ← verifySubproof h oldSize oldRoot levels (m - k) (n - k) false proof
        some (closeRight h right)

def verify [DecidableEq H] (h : Hashing H) (oldSize : Nat) (oldRoot : H) (newSize : Nat)
    (newRoot : H) (proof : List H) : Option Bool :=
  if oldSize = 0 ∨ oldSize > newSize then some false
  else if oldSize = newSize then some (proof.isEmpty && decide (oldRoot = newRoot))
  else do
    let ((computedOldRoot, computedNewRoot), unread) ←
      verifySubproof h oldSize oldRoot maxLevels oldSize newSize true proof
    if unread ≠ [] then some false
    else some (decide (computedOldRoot = oldRoot) && decide (computedNewRoot = newRoot))

section Steps

variable (h : Hashing H) (oldSize : Nat) (oldRoot : H) {m n : Nat}

theorem verifySubproof_known (levels : Nat) (proof : List H) :
    verifySubproof h oldSize oldRoot (levels + 1) m m true proof =
      some ((oldRoot, oldRoot), proof) := by
  simp [verifySubproof]

theorem verifySubproof_left (levels : Nat) (b : Bool) (proof : List H) (hpos : 0 < m) (hlt : m < n)
    (hn : n ≤ 2 ^ 63) (hle : m ≤ split n) :
    verifySubproof h oldSize oldRoot (levels + 1) m n b proof =
      (verifySubproof h oldSize oldRoot levels m (split n) b proof).map
        (closeLeft h (if b && m == oldSize then some oldRoot else none)) := by
  have hne : m ≠ n := by omega
  simp only [verifySubproof, if_neg hne, largestPowerOfTwoLessThan_eq (by omega : 2 ≤ n) hn,
    Option.bind_eq_bind, Option.bind_some, if_pos hle]
  cases verifySubproof h oldSize oldRoot levels m (split n) b proof <;> rfl

theorem verifySubproof_right (levels : Nat) (b : Bool) (proof : List H) (hpos : 0 < m)
    (hlt : m < n) (hn : n ≤ 2 ^ 63) (hle : split n < m) :
    verifySubproof h oldSize oldRoot (levels + 1) m n b proof =
      (verifySubproof h oldSize oldRoot levels (m - split n) (n - split n) false proof).map
        (closeRight h) := by
  have hne : m ≠ n := by omega
  have hgt : ¬ m ≤ split n := by omega
  simp only [verifySubproof, if_neg hne, largestPowerOfTwoLessThan_eq (by omega : 2 ≤ n) hn,
    Option.bind_eq_bind, Option.bind_some, if_neg hgt]
  cases verifySubproof h oldSize oldRoot levels (m - split n) (n - split n) false proof <;> rfl

end Steps

section Honest

variable (h : Hashing H) (oldSize : Nat) (oldRoot : H)

theorem root_split {D : List H} (hD : 2 ≤ D.length) :
    h.root D = h.nodeHash (h.root (D.take (split D.length))) (h.root (D.drop (split D.length))) :=
  mth_split h.emptyHash h.nodeHash hD

/-- Beyond the split the first `m` leaves are the left part and the first leaves of the right. -/
theorem root_take {D : List H} {m : Nat} (hm : m ≤ D.length) (h2 : 2 ≤ D.length)
    (hgt : split D.length < m) :
    h.root (D.take m) = h.nodeHash (h.root (D.take (split D.length)))
      (h.root ((D.drop (split D.length)).take (m - split D.length))) := by
  have hlen : (D.take m).length = m := by simp; omega
  have hsame := split_mono h2 hm hgt
  have hpos := split_pos D.length
  rw [root_split h (by omega), hlen, hsame, take_take, Nat.min_eq_left (Nat.le_of_lt hgt),
    drop_take]

/-- The recursion reads an honest proof, and only it, and recomputes both roots. Under the flag
the old root has to be the root of the first leaves. -/
theorem verifySubproof_honest (levels : Nat) :
    ∀ (m j : Nat) (D : List H) (b : Bool) (rest : List H), 0 < m → m ≤ D.length →
      D.length ≤ 2 ^ j → j < levels → j ≤ 63 → (b = true → oldRoot = h.root (D.take m)) →
      verifySubproof h oldSize oldRoot levels m D.length b
        (subproof h.emptyHash h.nodeHash m D b ++ rest) =
        some ((h.root (D.take m), h.root D), rest) := by
  induction levels with
  | zero =>
    intro m j D b rest _ _ _ hj
    omega
  | succ levels ih =>
    intro m j D b rest hpos hm hD hj hsmall hold
    have hbound : D.length ≤ 2 ^ 63 := hD.trans (Nat.pow_le_pow_right (by decide) hsmall)
    by_cases whole : m = D.length
    · have hproof := subproof_whole h.emptyHash h.nodeHash b whole
      subst whole
      rw [hproof, take_length]
      cases b with
      | true =>
        have := hold rfl
        rw [take_length] at this
        rw [← this]
        simp [verifySubproof]
      | false => simp [verifySubproof, Hashing.root]
    · have hlt : m < D.length := by omega
      have h2 : 2 ≤ D.length := by omega
      have hsplit := split_lt h2
      obtain ⟨i, rfl⟩ := exists_level h2 hD
      rcases Nat.lt_or_ge (split D.length) m with hgt | hle
      · have hlen : (D.drop (split D.length)).length = D.length - split D.length := by simp
        have right := ih (m - split D.length) i (D.drop (split D.length)) false
          (h.root (D.take (split D.length)) :: rest) (by omega) (by omega)
          (by rw [hlen]; exact sub_split_le_pow h2 hD) (by omega) (by omega) (by simp)
        rw [hlen] at right
        rw [verifySubproof_right h oldSize oldRoot levels b _ hpos hlt hbound hgt,
          subproof_right h.emptyHash h.nodeHash b hlt hpos hgt, append_assoc]
        change Option.map _ (verifySubproof h oldSize oldRoot levels _ _ false
          (_ ++ h.root (D.take (split D.length)) :: rest)) = _
        rw [right, root_take h hm h2 hgt, root_split h h2]
        rfl
      · have hlen : (D.take (split D.length)).length = split D.length := by simp; omega
        have htake : (D.take (split D.length)).take m = D.take m := by
          rw [take_take, Nat.min_eq_left hle]
        have left := ih m i (D.take (split D.length)) b (h.root (D.drop (split D.length)) :: rest)
          hpos (by omega) (by rw [hlen]; exact split_le_pow h2 hD) (by omega) (by omega)
          (by rw [htake]; exact hold)
        rw [hlen, htake] at left
        rw [verifySubproof_left h oldSize oldRoot levels b _ hpos hlt hbound hle,
          subproof_left h.emptyHash h.nodeHash b hlt hpos hle, append_assoc]
        change Option.map _ (verifySubproof h oldSize oldRoot levels _ _ b
          (_ ++ h.root (D.drop (split D.length)) :: rest)) = _
        rw [left, root_split h h2]
        cases b with
        | true =>
          rw [← hold rfl]
          by_cases boundary : m = oldSize <;> simp [closeLeft, boundary]
        | false => rfl

theorem closeLeft_unread (trusted : Option H) (r : Subproof H) :
    (closeLeft h trusted r).2 = r.2.drop 1 := by
  obtain ⟨⟨o⟩, rest⟩ := r
  cases rest <;> rfl

theorem closeRight_unread (r : Subproof H) : (closeRight h r).2 = r.2.drop 1 := by
  obtain ⟨⟨o⟩, rest⟩ := r
  cases rest <;> rfl

/-- How much of a proof is read depends on the sizes only. -/
theorem verifySubproof_reads (levels : Nat) :
    ∀ (m j : Nat) (D : List H) (b : Bool) (proof : List H), 0 < m → m ≤ D.length →
      D.length ≤ 2 ^ j → j < levels → j ≤ 63 →
      ∃ r, verifySubproof h oldSize oldRoot levels m D.length b proof =
        some (r, proof.drop (subproof h.emptyHash h.nodeHash m D b).length) := by
  induction levels with
  | zero =>
    intro m j D b proof _ _ _ hj
    omega
  | succ levels ih =>
    intro m j D b proof hpos hm hD hj hsmall
    have hbound : D.length ≤ 2 ^ 63 := hD.trans (Nat.pow_le_pow_right (by decide) hsmall)
    by_cases whole : m = D.length
    · rw [subproof_whole h.emptyHash h.nodeHash b whole, whole]
      cases b with
      | true => exact ⟨(oldRoot, oldRoot), by simp [verifySubproof]⟩
      | false =>
        cases proof with
        | nil => exact ⟨(h.zero, h.zero), by simp [verifySubproof]⟩
        | cons x proof => exact ⟨(x, x), by simp [verifySubproof]⟩
    · have hlt : m < D.length := by omega
      have h2 : 2 ≤ D.length := by omega
      have hsplit := split_lt h2
      obtain ⟨i, rfl⟩ := exists_level h2 hD
      rcases Nat.lt_or_ge (split D.length) m with hgt | hle
      · have hlen : (D.drop (split D.length)).length = D.length - split D.length := by simp
        obtain ⟨r, hr⟩ := ih (m - split D.length) i (D.drop (split D.length)) false proof (by omega)
          (by omega) (by rw [hlen]; exact sub_split_le_pow h2 hD) (by omega) (by omega)
        rw [hlen] at hr
        rw [verifySubproof_right h oldSize oldRoot levels b _ hpos hlt hbound hgt, hr,
          subproof_right h.emptyHash h.nodeHash b hlt hpos hgt, length_append,
          ← drop_drop]
        exact ⟨_, congrArg some (Prod.ext rfl (closeRight_unread h _))⟩
      · have hlen : (D.take (split D.length)).length = split D.length := by simp; omega
        obtain ⟨r, hr⟩ := ih m i (D.take (split D.length)) b proof hpos (by omega)
          (by rw [hlen]; exact split_le_pow h2 hD) (by omega) (by omega)
        rw [hlen] at hr
        rw [verifySubproof_left h oldSize oldRoot levels b _ hpos hlt hbound hle, hr,
          subproof_left h.emptyHash h.nodeHash b hlt hpos hle, length_append,
          ← drop_drop]
        exact ⟨_, congrArg some (Prod.ext rfl (closeLeft_unread h _ _))⟩

/-- A proof that ends too early leaves the last step without a hash to read. -/
theorem verifySubproof_short {m : Nat} {D : List H} {proof : List H} (hpos : 0 < m)
    (hlt : m < D.length) (hD : D.length < 2 ^ 63)
    (short : proof.length < (subproof h.emptyHash h.nodeHash m D true).length) :
    verifySubproof h oldSize oldRoot maxLevels m D.length true proof =
      some ((h.zero, h.zero), []) := by
  have h2 : 2 ≤ D.length := by omega
  have hsplit := split_lt h2
  have hbound : D.length ≤ 2 ^ (62 + 1) := Nat.le_of_lt hD
  rcases Nat.lt_or_ge (split D.length) m with hgt | hle
  · have hlen : (D.drop (split D.length)).length = D.length - split D.length := by simp
    obtain ⟨r, hr⟩ := verifySubproof_reads h oldSize oldRoot 64 (m - split D.length) 62
      (D.drop (split D.length)) false proof (by omega) (by omega)
      (by rw [hlen]; exact sub_split_le_pow h2 hbound) (by decide) (by decide)
    rw [subproof_right h.emptyHash h.nodeHash true hlt hpos hgt, length_append,
      length_singleton] at short
    rw [hlen, drop_eq_nil_of_le (by omega)] at hr
    rw [maxLevels, verifySubproof_right h oldSize oldRoot 64 true _ hpos hlt hbound hgt, hr]
    rfl
  · have hlen : (D.take (split D.length)).length = split D.length := by simp; omega
    obtain ⟨r, hr⟩ := verifySubproof_reads h oldSize oldRoot 64 m 62 (D.take (split D.length)) true
      proof hpos (by omega) (by rw [hlen]; exact split_le_pow h2 hbound) (by decide) (by decide)
    rw [subproof_left h.emptyHash h.nodeHash true hlt hpos hle, length_append,
      length_singleton] at short
    rw [hlen, drop_eq_nil_of_le (by omega)] at hr
    rw [maxLevels, verifySubproof_left h oldSize oldRoot 64 true _ hpos hlt hbound hle, hr]
    rfl

end Honest

section Verify

variable [DecidableEq H] (h : Hashing H) {oldSize newSize : Nat} {oldRoot newRoot : H}
  {proof : List H}

theorem verify_of_subproof (hpos : 0 < oldSize) (hlt : oldSize < newSize) {r : H × H}
    {unread : List H}
    (hr : verifySubproof h oldSize oldRoot maxLevels oldSize newSize true proof =
      some (r, unread)) :
    verify h oldSize oldRoot newSize newRoot proof =
      some (unread.isEmpty && (decide (r.1 = oldRoot) && decide (r.2 = newRoot))) := by
  have hne : oldSize ≠ newSize := by omega
  rw [verify, if_neg (by omega), if_neg hne, hr]
  cases unread with
  | nil => simp
  | cons x unread => simp

theorem verify_same (hpos : 0 < oldSize) :
    verify h oldSize oldRoot oldSize newRoot proof =
      some (proof.isEmpty && decide (oldRoot = newRoot)) := by
  rw [verify, if_neg (by omega), if_pos rfl]

/-- An honest proof is accepted; with a hash that is injective and never zero, nothing shorter or
longer that agrees with it is. -/
theorem verify_consistency_complete {D : List H} {m : Nat} (hD : D.length < 2 ^ 63) (hpos : 0 < m)
    (hm : m ≤ D.length) :
    ∃ oldRoot newRoot, computeRoot h (D.take m) = some oldRoot ∧ computeRoot h D = some newRoot ∧
      verify h m oldRoot D.length newRoot (subproof h.emptyHash h.nodeHash m D true) = some true ∧
      (Function.Injective2 h.nodeHash → (∀ a b, h.nodeHash a b ≠ h.zero) →
        (∀ Q, Q <+: subproof h.emptyHash h.nodeHash m D true →
          Q ≠ subproof h.emptyHash h.nodeHash m D true →
          verify h m oldRoot D.length newRoot Q = some false) ∧
        ∀ Q, Q ≠ [] →
          verify h m oldRoot D.length newRoot (subproof h.emptyHash h.nodeHash m D true ++ Q) =
            some false) := by
  refine ⟨h.root (D.take m), h.root D, computeRoot_eq h (by simp; omega),
    computeRoot_eq h (Nat.le_of_lt hD), ?_⟩
  by_cases whole : m = D.length
  · rw [subproof_whole h.emptyHash h.nodeHash true whole, whole, take_length]
    simp only [if_true, nil_append, verify_same h (whole ▸ hpos), isEmpty_nil,
      decide_true, Bool.and_true, true_and]
    intro _ _
    constructor
    · intro Q agrees hne
      exact absurd (prefix_nil.mp agrees) hne
    · intro Q hne
      simpa using hne
  · have hlt : m < D.length := by omega
    have honest := fun rest => verifySubproof_honest h m (h.root (D.take m)) maxLevels m 63 D true
      rest hpos hm (Nat.le_of_lt hD) (by decide) (by decide) (fun _ => rfl)
    have accepted := honest []
    rw [append_nil] at accepted
    refine ⟨?_, ?_⟩
    · rw [verify_of_subproof h hpos hlt accepted]
      simp
    · intro _ nonzero
      constructor
      · intro Q agrees hne
        have short : Q.length < (subproof h.emptyHash h.nodeHash m D true).length := by
          rcases Nat.lt_or_ge Q.length (subproof h.emptyHash h.nodeHash m D true).length with
            hlen | hlen
          · exact hlen
          · exact absurd (agrees.eq_of_length_le hlen) hne
        have hzero : h.zero ≠ h.root D := by
          rw [root_split h (by omega)]
          exact (nonzero _ _).symm
        rw [verify_of_subproof h hpos hlt (verifySubproof_short h m _ hpos hlt hD short)]
        simp [hzero]
      · intro Q hne
        rw [verify_of_subproof h hpos hlt (honest Q)]
        simp [hne]

end Verify

/-- Pairing of naturals: an injective node hash that is never the default hash. -/
def pairHashing : Hashing Nat := ⟨0, fun a b => Nat.pair a b + 1, 0⟩

theorem pairHashing_injective : Function.Injective2 pairHashing.nodeHash := by
  intro a b c d heq
  exact Nat.pair_eq_pair.mp (Nat.succ_injective heq)

theorem pairHashing_nonzero (a b : Nat) : pairHashing.nodeHash a b ≠ pairHashing.zero :=
  Nat.succ_ne_zero _

/-- The step from three leaves to five: the proof with its last hash missing is refused. -/
theorem verify_consistency_complete_five :
    ∃ oldRoot newRoot, computeRoot pairHashing [1, 2, 3] = some oldRoot ∧
      computeRoot pairHashing [1, 2, 3, 4, 5] = some newRoot ∧
      verify pairHashing 3 oldRoot 5 newRoot
        (subproof 0 pairHashing.nodeHash 3 [1, 2, 3, 4, 5] true) = some true ∧
      verify pairHashing 3 oldRoot 5 newRoot
        (subproof 0 pairHashing.nodeHash 3 [1, 2, 3, 4, 5] true).dropLast = some false := by
  obtain ⟨oldRoot, newRoot, hold, hnew, accepted, refused⟩ := verify_consistency_complete
    pairHashing (D := [1, 2, 3, 4, 5]) (m := 3) (by decide) (by decide) (by decide)
  refine ⟨oldRoot, newRoot, hold, hnew, accepted, ?_⟩
  refine (refused pairHashing_injective pairHashing_nonzero).1 _ (List.dropLast_prefix _) ?_
  intro same
  have hne : subproof 0 pairHashing.nodeHash 3 [1, 2, 3, 4, 5] true ≠ [] := by
    rw [subproof_left 0 pairHashing.nodeHash true (by decide) (by decide) (by decide)]
    simp
  have hlen := congrArg List.length same
  have hpos := length_pos_iff.mpr hne
  rw [length_dropLast] at hlen
  change (subproof 0 pairHashing.nodeHash 3 [1, 2, 3, 4, 5] true).length - 1 =
    (subproof 0 pairHashing.nodeHash 3 [1, 2, 3, 4, 5] true).length at hlen
  omega

section Binding

variable {h : Hashing H} (inj : Function.Injective2 h.nodeHash)
  (nonzero : ∀ a b, h.nodeHash a b ≠ h.zero)
include inj

theorem root_injective {D E : List H} (hlen : D.length = E.length) (heq : h.root D = h.root E) :
    D = E :=
  mth_injective inj D.length D E rfl hlen.symm heq

include nonzero

/-- A left step whose new hash is a root has read the root of the right part. -/
theorem closeLeft_root {trusted : Option H} {r : Subproof H} {o : H} {E : List H} {rest : List H}
    (hE : 2 ≤ E.length) (hr : closeLeft h trusted r = ((o, h.root E), rest)) :
    r.1.2 = h.root (E.take (split E.length)) ∧ o = trusted.getD r.1.1 := by
  obtain ⟨⟨oldLeft⟩, unread⟩ := r
  rw [root_split h hE] at hr
  cases unread with
  | nil => exact absurd (congrArg (fun x => x.1.2) hr).symm (nonzero _ _)
  | cons right unread =>
    exact ⟨(inj (congrArg (fun x => x.1.2) hr)).1, (congrArg (fun x => x.1.1) hr).symm⟩

/-- Without the flag, recomputing two roots means that the one list begins with the other. -/
theorem verifySubproof_sound (oldSize : Nat) (oldRoot : H) (levels : Nat) :
    ∀ (E E' proof rest : List H), 0 < E.length → E.length ≤ E'.length → E'.length ≤ 2 ^ 63 →
      verifySubproof h oldSize oldRoot levels E.length E'.length false proof =
        some ((h.root E, h.root E'), rest) → E = E'.take E.length := by
  induction levels with
  | zero =>
    intro E E' proof rest _ _ _ hr
    cases hr
  | succ levels ih =>
    intro E E' proof rest hpos hle hbound hr
    by_cases same : E.length = E'.length
    · rw [same, take_length]
      refine root_injective inj same ?_
      simp only [verifySubproof, same] at hr
      cases proof with
      | nil =>
        have pair := congrArg Prod.fst (Option.some.inj hr)
        exact (congrArg Prod.fst pair).symm.trans (congrArg Prod.snd pair)
      | cons x proof =>
        have pair := congrArg Prod.fst (Option.some.inj hr)
        exact (congrArg Prod.fst pair).symm.trans (congrArg Prod.snd pair)
    · have hlt : E.length < E'.length := by omega
      have h2 : 2 ≤ E'.length := by omega
      have hsplit := split_lt h2
      have hsplitPos := split_pos E'.length
      rcases Nat.lt_or_ge (split E'.length) E.length with hgt | hge
      · rw [verifySubproof_right h oldSize oldRoot levels false proof hpos hlt hbound hgt] at hr
        obtain ⟨⟨⟨oldRight⟩, unread⟩, inner, closed⟩ := Option.map_eq_some_iff.mp hr
        have hsame := split_mono h2 hle hgt
        have rootE := root_split h (D := E) (by omega)
        rw [hsame] at rootE
        rw [rootE, root_split h h2] at closed
        cases unread with
        | nil => exact absurd (congrArg (fun x => x.1.2) closed).symm (nonzero _ _)
        | cons left unread =>
          obtain ⟨hl, ho⟩ := inj (congrArg (fun x => x.1.1) closed)
          obtain ⟨hl', hw⟩ := inj (congrArg (fun x => x.1.2) closed)
          have hlenE : (E.drop (split E'.length)).length = E.length - split E'.length := by simp
          have hlenE' : (E'.drop (split E'.length)).length = E'.length - split E'.length := by simp
          have front : E.take (split E'.length) = E'.take (split E'.length) :=
            root_injective inj (by simp; omega) (hl.symm.trans hl')
          rw [ho, hw, ← hlenE, ← hlenE'] at inner
          have back := ih (E.drop (split E'.length)) (E'.drop (split E'.length)) proof _
            (by omega) (by omega) (by omega) inner
          rw [hlenE] at back
          calc E = E.take (split E'.length) ++ E.drop (split E'.length) :=
                (take_append_drop _ _).symm
            _ = E'.take (split E'.length) ++
                (E'.drop (split E'.length)).take (E.length - split E'.length) := by
              rw [← front, ← back]
            _ = E'.take (split E'.length + (E.length - split E'.length)) := take_add.symm
            _ = E'.take E.length := by rw [Nat.add_sub_cancel' (Nat.le_of_lt hgt)]
      · rw [verifySubproof_left h oldSize oldRoot levels false proof hpos hlt hbound hge] at hr
        obtain ⟨⟨⟨oldLeft, newLeft⟩⟩, inner, closed⟩ := Option.map_eq_some_iff.mp hr
        obtain ⟨hw, ho⟩ := closeLeft_root inj nonzero h2 closed
        have hlen : (E'.take (split E'.length)).length = split E'.length := by simp; omega
        have hold : oldLeft = h.root E := ho.symm
        have hnew : newLeft = h.root (E'.take (split E'.length)) := hw
        rw [← hlen, hold, hnew] at inner
        have front := ih E (E'.take (split E'.length)) proof _ hpos (by omega) (by omega) inner
        rwa [take_take, Nat.min_eq_left hge] at front

/-- When the old size is a power of two, the recursion ends at the boundary of the old tree and
the new root contains the old one. -/
theorem verifySubproof_boundary (oldSize : Nat) (oldRoot : H) (levels i : Nat) :
    ∀ (o : H) (E proof rest : List H), 2 ^ i ≤ E.length → E.length ≤ 2 ^ 63 →
      verifySubproof h oldSize oldRoot levels (2 ^ i) E.length true proof =
        some ((o, h.root E), rest) → oldRoot = h.root (E.take (2 ^ i)) := by
  induction levels with
  | zero =>
    intro o E proof rest _ _ hr
    cases hr
  | succ levels ih =>
    intro o E proof rest hle hbound hr
    by_cases same : 2 ^ i = E.length
    · rw [same] at hr ⊢
      rw [verifySubproof_known] at hr
      rw [take_length]
      exact congrArg (fun x => x.1.2) (Option.some.inj hr)
    · have hlt : 2 ^ i < E.length := by omega
      have hpos := Nat.two_pow_pos i
      have hge := two_pow_le_split hlt
      have hsplit := split_lt (n := E.length) (by omega)
      rw [verifySubproof_left h oldSize oldRoot levels true proof hpos hlt hbound hge] at hr
      obtain ⟨⟨⟨oldLeft, newLeft⟩, unread⟩, inner, closed⟩ := Option.map_eq_some_iff.mp hr
      have hnew : newLeft = h.root (E.take (split E.length)) :=
        (closeLeft_root inj nonzero (by omega) closed).1
      have hlen : (E.take (split E.length)).length = split E.length := by simp; omega
      rw [← hlen, hnew] at inner
      have front := ih oldLeft (E.take (split E.length)) proof unread (by omega) (by omega) inner
      rwa [take_take, Nat.min_eq_left hge] at front

end Binding

/-- Pairs of sizes for which the verifier binds the old root: the recursion ends at the boundary
of the old tree, or its first step already leaves that boundary. -/
def OldRootBound (oldSize newSize : Nat) : Prop :=
  oldSize = newSize ∨ oldSize.isPowerOfTwo ∨
    ∃ k, largestPowerOfTwoLessThan newSize = some k ∧ k < oldSize

section Sound

variable [DecidableEq H] {h : Hashing H} {m n : Nat}

/-- What a positive answer to a proper advance says about the recursion. -/
theorem verify_true {oldRoot newRoot : H} {proof : List H} (hlt : m < n)
    (hv : verify h m oldRoot n newRoot proof = some true) :
    verifySubproof h m oldRoot maxLevels m n true proof = some ((oldRoot, newRoot), []) := by
  have hpos : 0 < m := by
    by_contra hzero
    rw [verify, if_pos (by omega)] at hv
    cases hv
  have hne : m ≠ n := by omega
  cases hr : verifySubproof h m oldRoot maxLevels m n true proof with
  | none =>
    rw [verify, if_neg (by omega), if_neg hne, hr] at hv
    cases hv
  | some result =>
    obtain ⟨⟨o⟩⟩ := result
    rw [verify_of_subproof h hpos hlt hr] at hv
    simp only [Option.some.injEq, Bool.and_eq_true, List.isEmpty_iff, decide_eq_true_eq] at hv
    rw [hv.1, hv.2.1, hv.2.2]

theorem verify_sound (inj : Function.Injective2 h.nodeHash)
    (nonzero : ∀ a b, h.nodeHash a b ≠ h.zero) {D D' proof : List H} (hpos : 0 < D.length)
    (hle : D.length ≤ D'.length) (hn : D'.length < 2 ^ 63)
    (bound : OldRootBound D.length D'.length)
    (hv : verify h D.length (h.root D) D'.length (h.root D') proof = some true) :
    D = D'.take D.length := by
  by_cases same : D.length = D'.length
  · rw [← same, verify_same h hpos] at hv
    rw [same, take_length]
    refine root_injective inj same ?_
    simp only [Option.some.injEq, Bool.and_eq_true, decide_eq_true_eq] at hv
    exact hv.2
  · have hlt : D.length < D'.length := by omega
    have hr := verify_true hlt hv
    rcases bound with h' | ⟨i, hi⟩ | ⟨k, hk, hgt⟩
    · exact absurd h' same
    · rw [hi] at hr hle
      have hroot := verifySubproof_boundary inj nonzero _ _ maxLevels i _ D' proof []
        hle (Nat.le_of_lt hn) hr
      refine root_injective inj (by simp; omega) ?_
      rw [hi]
      exact hroot
    · have hsplit : split D'.length < D.length := by
        rw [largestPowerOfTwoLessThan_eq (by omega) (Nat.le_of_lt hn)] at hk
        rw [Option.some.inj hk]
        exact hgt
      -- the first step is a right step, which forgets the flag
      have forget : verifySubproof h D.length (h.root D) maxLevels D.length D'.length true proof =
          verifySubproof h D.length (h.root D) maxLevels D.length D'.length false proof := by
        rw [maxLevels, verifySubproof_right h _ _ 64 true _ hpos hlt (Nat.le_of_lt hn) hsplit,
          verifySubproof_right h _ _ 64 false _ hpos hlt (Nat.le_of_lt hn) hsplit]
      rw [forget] at hr
      exact verifySubproof_sound inj nonzero _ _ maxLevels D D' proof [] hpos hle
        (Nat.le_of_lt hn) hr

omit [DecidableEq H] in
/-- Inside a tree of `2 ^ i` leaves, an old size that is no power of two leads the recursion away
from the boundary before it ends, whatever the old root is. -/
theorem verifySubproof_unbound (oldSize : Nat) (oldRoot : H) (odd : ¬ m.isPowerOfTwo) (hpos : 0 < m)
    (i : Nat) : ∀ (levels : Nat) (D rest : List H), D.length = 2 ^ i → m ≤ D.length → i < levels →
      i ≤ 63 → ∃ o, verifySubproof h oldSize oldRoot levels m D.length true
        (subproof h.emptyHash h.nodeHash m D true ++ rest) = some ((o, h.root D), rest) := by
  induction i with
  | zero =>
    intro levels D rest hD hm _ _
    exact absurd ⟨0, by omega⟩ odd
  | succ i ih =>
    intro levels D rest hD hm hlevels hsmall
    obtain ⟨levels, rfl⟩ : ∃ l, levels = l + 1 := ⟨levels - 1, by omega⟩
    have hne : m ≠ D.length := fun heq => odd ⟨i + 1, heq.trans hD⟩
    have hlt : m < D.length := by omega
    have h2 : 2 ≤ D.length := by omega
    have hbound : D.length ≤ 2 ^ 63 := hD ▸ Nat.pow_le_pow_right (by decide) hsmall
    have hsplit : split D.length = 2 ^ i := by rw [hD, split_two_pow]
    have hhalf := split_lt h2
    rcases Nat.lt_or_ge (split D.length) m with hgt | hle
    · have hlen : (D.drop (split D.length)).length = D.length - split D.length := by simp
      have right := verifySubproof_honest h oldSize oldRoot levels (m - split D.length) i
        (D.drop (split D.length)) false (h.root (D.take (split D.length)) :: rest) (by omega)
        (by omega) (by rw [hlen, hsplit, hD, Nat.pow_succ]; omega) (by omega) (by omega) (by simp)
      rw [hlen] at right
      rw [verifySubproof_right h oldSize oldRoot levels true _ hpos hlt hbound hgt,
        subproof_right h.emptyHash h.nodeHash true hlt hpos hgt, append_assoc,
        singleton_append]
      change ∃ o, Option.map _ (verifySubproof h oldSize oldRoot levels _ _ false
        (_ ++ h.root (D.take (split D.length)) :: rest)) = _
      rw [right, root_split h h2]
      exact ⟨_, rfl⟩
    · have hlen : (D.take (split D.length)).length = split D.length := by simp; omega
      obtain ⟨o, left⟩ := ih levels (D.take (split D.length))
        (h.root (D.drop (split D.length)) :: rest) (by rw [hlen, hsplit]) (by omega) (by omega)
        (by omega)
      rw [hlen] at left
      rw [verifySubproof_left h oldSize oldRoot levels true _ hpos hlt hbound hle,
        subproof_left h.emptyHash h.nodeHash true hlt hpos hle, append_assoc,
        singleton_append]
      change ∃ o, Option.map _ (verifySubproof h oldSize oldRoot levels _ _ true
        (_ ++ h.root (D.drop (split D.length)) :: rest)) = _
      rw [left, root_split h h2]
      exact ⟨_, rfl⟩

/-- For the other pairs of sizes the honest proof of the new tree passes with any old root. -/
theorem verify_unbound {D : List H} (hpos : 0 < m) (hn : D.length < 2 ^ 63)
    (hm : m ≤ D.length) (unbound : ¬ OldRootBound m D.length) (oldRoot : H) :
    verify h m oldRoot D.length (h.root D) (subproof h.emptyHash h.nodeHash m D true) =
      some true := by
  simp only [OldRootBound, not_or, not_exists, not_and, Nat.not_lt] at unbound
  obtain ⟨hne, odd, low⟩ := unbound
  have hlt : m < D.length := by omega
  have h2 : 2 ≤ D.length := by omega
  have hle := low _ (largestPowerOfTwoLessThan_eq h2 (Nat.le_of_lt hn))
  have hhalf := split_lt h2
  have hlen : (D.take (split D.length)).length = split D.length := by simp; omega
  have hlog : Nat.log 2 (D.length - 1) < 64 := by
    have hpow : split D.length < 2 ^ 63 := by omega
    rw [split, Nat.pow_lt_pow_iff_right (by decide)] at hpow
    omega
  obtain ⟨o, left⟩ := verifySubproof_unbound (h := h) m oldRoot odd hpos _ 64
    (D.take (split D.length)) [h.root (D.drop (split D.length))] hlen (by omega) hlog (by omega)
  rw [hlen] at left
  have accepted : verifySubproof h m oldRoot maxLevels m D.length true
      (subproof h.emptyHash h.nodeHash m D true) = some ((oldRoot, h.root D), []) := by
    rw [maxLevels, verifySubproof_left h m oldRoot 64 true _ hpos hlt (Nat.le_of_lt hn) hle,
      subproof_left h.emptyHash h.nodeHash true hlt hpos hle]
    change Option.map _ (verifySubproof h m oldRoot 64 _ _ true
      (_ ++ [h.root (D.drop (split D.length))])) = _
    rw [left, root_split h h2]
    simp [closeLeft]
  rw [verify_of_subproof h hpos hlt accepted]
  simp

end Sound

end JobAiPkg
