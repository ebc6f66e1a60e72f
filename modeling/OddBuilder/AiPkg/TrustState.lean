import OddBuilder.AiPkg.Consistency

/-!
# Trusted tree heads

A client bootstraps once and then replaces its tree head by candidates that
come with a consistency proof. Behind every head stands the list of leaves it
is the root of; what a run of calls does to these lists is stated for the pairs
of sizes for which the verifier binds the old root.
-/

namespace JobAiPkg

open MerkleTree

/-- Signed tree head. -/
structure AiPkgSTH (H : Type) where
  size : Nat
  root : H
  tsMs : Int
  first : Nat
  last : Nat

structure JobAiPkgTrustState (H : Type) where
  trusted : AiPkgSTH H
  hasState : Bool

variable {H : Type} [DecidableEq H]

namespace JobAiPkgTrustState

variable {h : Hashing H}

def bootstrap (s : JobAiPkgTrustState H) (initialSTH : AiPkgSTH H) :
    Bool × JobAiPkgTrustState H :=
  if s.hasState then (false, s) else (true, ⟨initialSTH, true⟩)

def tryAdvance (h : Hashing H) (s : JobAiPkgTrustState H) (candidate : AiPkgSTH H)
    (consistencyProof : List H) : Option (Bool × JobAiPkgTrustState H) :=
  if !s.hasState then some (false, s)
  else do
    let consistent ← verify h s.trusted.size s.trusted.root candidate.size candidate.root
      consistencyProof
    if !consistent then some (false, s) else some (true, { s with trusted := candidate })

/-- A call of a client. -/
inductive TrustCall (H : Type) where
  | bootstrap (initialSTH : AiPkgSTH H)
  | tryAdvance (candidate : AiPkgSTH H) (consistencyProof : List H)

/-- The head that a call offers. -/
def TrustCall.head : TrustCall H → AiPkgSTH H
  | .bootstrap initialSTH => initialSTH
  | .tryAdvance candidate _ => candidate

def call (h : Hashing H) (s : JobAiPkgTrustState H) : TrustCall H → Option (JobAiPkgTrustState H)
  | .bootstrap initialSTH => some (s.bootstrap initialSTH).2
  | .tryAdvance candidate proof => (tryAdvance h s candidate proof).map Prod.snd

def runCalls (h : Hashing H) (s : JobAiPkgTrustState H) :
    List (TrustCall H) → Option (JobAiPkgTrustState H)
  | [] => some s
  | c :: calls => (call h s c).bind fun s => runCalls h s calls

/-- The head is the root of the list, and its size the length. -/
structure Backs (h : Hashing H) (D : List H) (sth : AiPkgSTH H) : Prop where
  size_eq : D.length = sth.size
  root_eq : computeRoot h D = some sth.root
  small : D.length < 2 ^ 63

/-- Every advance of the run is between sizes for which the old root is bound. -/
def BoundRun (h : Hashing H) : JobAiPkgTrustState H → List (TrustCall H) → Prop
  | _, [] => True
  | s, c :: calls =>
    (∀ candidate proof, c = .tryAdvance candidate proof →
      OldRootBound s.trusted.size candidate.size) ∧
    ∀ t, call h s c = some t → BoundRun h t calls

/-- A call keeps the trusted head, or sets the first one, or moves to a candidate that the
verifier accepted. -/
theorem call_cases {s t : JobAiPkgTrustState H} {c : TrustCall H} (hc : call h s c = some t) :
    t = s ∨ (s.hasState = false ∧ t = ⟨c.head, true⟩) ∨
      ∃ candidate proof, c = .tryAdvance candidate proof ∧ t = { s with trusted := candidate } ∧
        verify h s.trusted.size s.trusted.root candidate.size candidate.root proof = some true := by
  cases c with
  | bootstrap initialSTH =>
    obtain rfl := Option.some.inj hc
    simp only [bootstrap]
    split
    · exact Or.inl rfl
    · rename_i fresh
      exact Or.inr (Or.inl ⟨by simpa using fresh, rfl⟩)
  | tryAdvance candidate proof =>
    obtain ⟨⟨ok⟩, ha, rfl⟩ := Option.map_eq_some_iff.mp hc
    simp only [tryAdvance] at ha
    split at ha
    · exact Or.inl (congrArg Prod.snd (Option.some.inj ha)).symm
    · obtain ⟨consistent, hv, ha⟩ := Option.bind_eq_some_iff.mp ha
      cases consistent with
      | false => exact Or.inl (congrArg Prod.snd (Option.some.inj ha)).symm
      | true =>
        exact Or.inr (Or.inr ⟨candidate, proof, rfl, (congrArg Prod.snd (Option.some.inj ha)).symm,
          hv⟩)

theorem verify_size_le {m n : Nat} {oldRoot newRoot : H} {proof : List H}
    (hv : verify h m oldRoot n newRoot proof = some true) : 0 < m ∧ m ≤ n := by
  by_contra hbad
  rw [verify, if_pos (by omega)] at hv
  cases hv

/-- Once a head is trusted, no call makes it smaller. -/
theorem call_size_le {s t : JobAiPkgTrustState H} {c : TrustCall H} (hs : s.hasState = true)
    (hc : call h s c = some t) : t.hasState = true ∧ s.trusted.size ≤ t.trusted.size := by
  rcases call_cases hc with rfl | ⟨fresh, _⟩ | ⟨candidate, proof, _, rfl, hv⟩
  · exact ⟨hs, Nat.le_refl _⟩
  · rw [hs] at fresh
    cases fresh
  · exact ⟨hs, (verify_size_le hv).2⟩

theorem runCalls_size_le (calls : List (TrustCall H)) :
    ∀ s t : JobAiPkgTrustState H, s.hasState = true → runCalls h s calls = some t →
      t.hasState = true ∧ s.trusted.size ≤ t.trusted.size := by
  induction calls with
  | nil =>
    intro s t hs hr
    obtain rfl := Option.some.inj hr
    exact ⟨hs, Nat.le_refl _⟩
  | cons c calls ih =>
    intro s t hs hr
    obtain ⟨u, hc, hr⟩ := Option.bind_eq_some_iff.mp hr
    obtain ⟨hu, hle⟩ := call_size_le hs hc
    obtain ⟨ht, hle'⟩ := ih u t hu hr
    exact ⟨ht, hle.trans hle'⟩

omit [DecidableEq H] in
theorem Backs.root {D : List H} {sth : AiPkgSTH H} (backs : Backs h D sth) :
    sth.root = h.root D := by
  have := backs.root_eq
  rw [computeRoot_eq h (Nat.le_of_lt backs.small)] at this
  exact (Option.some.inj this).symm

section Runs

variable {h : Hashing H} (inj : Function.Injective2 h.nodeHash)
  (nonzero : ∀ a b, h.nodeHash a b ≠ h.zero)
include inj

omit [DecidableEq H] in
/-- Only one list of the right length stands behind a head. -/
theorem Backs.unique {D E : List H} {sth : AiPkgSTH H} (hD : Backs h D sth) (hE : Backs h E sth) :
    D = E :=
  root_injective inj (hD.size_eq.trans hE.size_eq.symm) (hD.root.symm.trans hE.root)

include nonzero

/-- One call between bound sizes extends the list. -/
theorem call_extends {s t : JobAiPkgTrustState H} {c : TrustCall H} (hs : s.hasState = true)
    (hc : call h s c = some t)
    (bound : ∀ candidate proof, c = .tryAdvance candidate proof →
      OldRootBound s.trusted.size candidate.size) {D E : List H} (hD : Backs h D s.trusted)
    (hE : Backs h E t.trusted) : D <+: E := by
  rcases call_cases hc with rfl | ⟨fresh, _⟩ | ⟨candidate, proof, hcall, rfl, hv⟩
  · exact (hD.unique inj hE) ▸ List.prefix_rfl
  · rw [hs] at fresh
    cases fresh
  · have hb := bound candidate proof hcall
    obtain ⟨hpos, hle⟩ := verify_size_le hv
    have hsize : E.length = candidate.size := hE.size_eq
    have hroot : candidate.root = h.root E := hE.root
    rw [← hD.size_eq, hD.root, ← hsize, hroot] at hv
    rw [← hD.size_eq, ← hsize] at hb hle
    rw [← hD.size_eq] at hpos
    have := verify_sound inj nonzero hpos hle hE.small hb hv
    rw [this]
    exact List.take_prefix _ _

theorem runCalls_extends (calls : List (TrustCall H)) :
    ∀ (s t : JobAiPkgTrustState H) (D E : List H), s.hasState = true →
      runCalls h s calls = some t → BoundRun h s calls →
      (∀ c ∈ calls, ∃ L, Backs h L c.head) → Backs h D s.trusted → Backs h E t.trusted →
      D <+: E := by
  induction calls with
  | nil =>
    intro s t D E _ hr _ _ hD hE
    obtain rfl := Option.some.inj hr
    exact (hD.unique inj hE) ▸ List.prefix_rfl
  | cons c calls ih =>
    intro s t D E hs hr bound backed hD hE
    obtain ⟨u, hc, hr⟩ := Option.bind_eq_some_iff.mp hr
    have hu := (call_size_le hs hc).1
    have middle : ∃ L, Backs h L u.trusted := by
      rcases call_cases hc with rfl | ⟨_, rfl⟩ | ⟨candidate, proof, rfl, rfl, _⟩
      · exact ⟨D, hD⟩
      · exact backed c List.mem_cons_self
      · exact backed _ List.mem_cons_self
    obtain ⟨L, hL⟩ := middle
    have first := call_extends inj nonzero hs hc bound.1 hD hL
    have rest := ih u t L E hu hr (bound.2 u hc)
      (fun c' hc' => backed c' (List.mem_cons_of_mem c hc')) hL hE
    exact first.trans rest

/-- The verifier binds the old list exactly for the bound pairs of sizes. Along a run of calls the
trusted size never decreases, and when every advance is between bound sizes, every trusted list
begins with the lists trusted before it. -/
theorem log_append_only :
    (∀ m n, 0 < m → m ≤ n → n < 2 ^ 63 →
      ((∀ (D D' proof : List H) (oldRoot newRoot : H), D.length = m → D'.length = n →
        computeRoot h D = some oldRoot → computeRoot h D' = some newRoot →
        verify h m oldRoot n newRoot proof = some true → D = D'.take m) ↔ OldRootBound m n)) ∧
    ∀ (start s t : JobAiPkgTrustState H) (before calls : List (TrustCall H)),
      runCalls h start before = some s → runCalls h s calls = some t → s.hasState = true →
      s.trusted.size ≤ t.trusted.size ∧
      (BoundRun h s calls → (∀ c ∈ calls, ∃ L, Backs h L c.head) →
        ∀ D E, Backs h D s.trusted → Backs h E t.trusted → D <+: E) := by
  constructor
  · intro m n hpos hle hn
    constructor
    · intro sound
      by_contra unbound
      have hlen : (List.replicate n (h.nodeHash h.zero h.zero)).length = n := List.length_replicate
      have accepted := verify_unbound (h := h) (D := List.replicate n (h.nodeHash h.zero h.zero))
        hpos (by omega) (by omega) (by rw [hlen]; exact unbound) (h.root (List.replicate m h.zero))
      rw [hlen] at accepted
      have heq := sound (List.replicate m h.zero) (List.replicate n (h.nodeHash h.zero h.zero)) _ _ _
        List.length_replicate hlen (computeRoot_eq h (by simp; omega))
        (computeRoot_eq h (by simp; omega)) accepted
      rw [List.take_replicate, Nat.min_eq_left hle] at heq
      have hhead := congrArg List.head? heq
      rw [List.head?_replicate, List.head?_replicate, if_neg (by omega), if_neg (by omega)] at hhead
      exact nonzero _ _ (Option.some.inj hhead).symm
    · intro bound D D' proof oldRoot newRoot hD hD' hold hnew hv
      rw [computeRoot_eq h (by omega)] at hold hnew
      rw [← Option.some.inj hold, ← Option.some.inj hnew, ← hD, ← hD'] at hv
      rw [← hD]
      exact verify_sound inj nonzero (by omega) (by omega) (by omega) (by rw [hD, hD']; exact bound) hv
  · intro start s t before calls _ hr hs
    refine ⟨(runCalls_size_le calls s t hs hr).2, ?_⟩
    intro bound backed D E hD hE
    exact runCalls_extends inj nonzero calls s t D E hs hr bound backed hD hE

end Runs

/-- A fork: the log of five leaves passes as a successor of three other leaves. -/
theorem log_fork_accepted :
    ∃ (D D' proof : List Nat) (oldRoot newRoot : Nat), D.length = 3 ∧ D'.length = 5 ∧
      computeRoot pairHashing D = some oldRoot ∧ computeRoot pairHashing D' = some newRoot ∧
      verify pairHashing 3 oldRoot 5 newRoot proof = some true ∧ D ≠ D'.take 3 := by
  refine ⟨[7, 8, 9], [1, 2, 3, 4, 5], [3, 4, pairHashing.nodeHash 1 2, 5],
    pairHashing.nodeHash (pairHashing.nodeHash 7 8) 9,
    pairHashing.nodeHash
      (pairHashing.nodeHash (pairHashing.nodeHash 1 2) (pairHashing.nodeHash 3 4)) 5,
    rfl, rfl, by decide, by decide, by decide, by decide⟩

/-- From four leaves to five the old root is bound. -/
theorem log_append_only_four :
    OldRootBound 4 5 ∧ ∀ (D D' proof : List Nat) (oldRoot newRoot : Nat), D.length = 4 →
      D'.length = 5 → computeRoot pairHashing D = some oldRoot →
      computeRoot pairHashing D' = some newRoot →
      verify pairHashing 4 oldRoot 5 newRoot proof = some true → D = D'.take 4 :=
  ⟨Or.inr (Or.inl ⟨2, rfl⟩), ((log_append_only pairHashing_injective pairHashing_nonzero).1 4 5
    (by decide) (by decide) (by decide)).mpr (Or.inr (Or.inl ⟨2, rfl⟩))⟩

end JobAiPkgTrustState

end JobAiPkg
