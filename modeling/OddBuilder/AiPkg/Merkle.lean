import OddBuilder.Library.MerkleTree

/-!
# Roots of the transparency log

`largestPowerOfTwoLessThan` doubles a 64-bit word, so above `2 ^ 63` the word
wraps to zero and the loop goes on for ever. The model counts the turns of the
loop and the levels of the recursions: `none` is a call that has not answered
within them. For lists of at most `2 ^ 63` leaves every call answers.
-/

namespace JobAiPkg

open MerkleTree List

/-- `Hash32{}`, `JobAiPkgMerkle::nodeHash` and the hash of the empty buffer. -/
structure Hashing (H : Type) where
  zero : H
  nodeHash : H → H → H
  emptyHash : H

/-- The loop `while (k * 2 < n) k *= 2`, for a number of turns. -/
def doubleBelow : Nat → Nat → Nat → Option Nat
  | 0, _, _ => none
  | turns + 1, n, k =>
    let doubled := k * 2 % 2 ^ 64
    if doubled < n then doubleBelow turns n doubled else some k

/-- After 64 turns the word is zero and stays so. -/
def largestPowerOfTwoLessThan (n : Nat) : Option Nat := doubleBelow 65 n 1

/-- Levels of recursion that a tree of 64-bit size can have. -/
def maxLevels : Nat := 65

variable {H : Type}

def computeSubtreeRoot (h : Hashing H) (leafHashes : List H) : Nat → Nat → Nat → Option H
  | 0, _, _ => none
  | levels + 1, start, count =>
    if count = 1 then leafHashes[start]?
    else do
      let k ← largestPowerOfTwoLessThan count
      let left ← computeSubtreeRoot h leafHashes levels start k
      let right ← computeSubtreeRoot h leafHashes levels (start + k) (count - k)
      some (h.nodeHash left right)

def computeRoot (h : Hashing H) (leafHashes : List H) : Option H :=
  if leafHashes.isEmpty then some h.emptyHash
  else computeSubtreeRoot h leafHashes maxLevels 0 leafHashes.length

/-- The hash of a list that the recursion on start and count computes. -/
def Hashing.root (h : Hashing H) (D : List H) : H := mth h.emptyHash h.nodeHash D

theorem doubleBelow_eq {n : Nat} (hn : n ≤ 2 ^ 63) (turns : Nat) :
    ∀ i, 2 ^ i < n → 64 ≤ turns + i → doubleBelow turns n (2 ^ i) = some (split n) := by
  induction turns with
  | zero =>
    intro i hi hturns
    have : 2 ^ 64 ≤ 2 ^ i := Nat.pow_le_pow_right (by decide) (by omega)
    omega
  | succ turns ih =>
    intro i hi hturns
    have hword : 2 ^ i * 2 % 2 ^ 64 = 2 ^ (i + 1) := by
      exact Nat.mod_eq_of_lt (by omega)
    simp only [doubleBelow, hword]
    split
    · rename_i below
      exact ih (i + 1) below (by omega)
    · rw [split_unique hi (by omega)]

/-- For trees of at most `2 ^ 63` leaves the loop finds the place of the split. -/
theorem largestPowerOfTwoLessThan_eq {n : Nat} (h2 : 2 ≤ n) (hn : n ≤ 2 ^ 63) :
    largestPowerOfTwoLessThan n = some (split n) :=
  doubleBelow_eq hn 65 0 (by omega) (by decide)

theorem computeSubtreeRoot_eq (h : Hashing H) (leafHashes : List H) (levels : Nat) :
    ∀ start count j, 0 < count → start + count ≤ leafHashes.length → count ≤ 2 ^ j → j < levels →
      j ≤ 63 → computeSubtreeRoot h leafHashes levels start count =
        some (h.root ((leafHashes.drop start).take count)) := by
  induction levels with
  | zero =>
    intro start count j _ _ _ hj
    omega
  | succ levels ih =>
    intro start count j hpos hlen hcount hj hsmall
    have hle : count ≤ 2 ^ 63 := hcount.trans (Nat.pow_le_pow_right (by decide) hsmall)
    by_cases one : count = 1
    · subst one
      have hget : leafHashes[start]? = some leafHashes[start] := List.getElem?_eq_getElem (by omega)
      have hlist : (leafHashes.drop start).take 1 = [leafHashes[start]] := by
        rw [drop_eq_getElem_cons (by omega), take_succ_cons, take_zero]
      rw [computeSubtreeRoot, if_pos rfl, hget, hlist, Hashing.root, mth_singleton]
    · have h2 : 2 ≤ count := by omega
      obtain ⟨i, rfl⟩ := exists_level h2 hcount
      have hlt := split_lt h2
      have hsplit := split_pos count
      have left := ih start (split count) i hsplit (by omega) (split_le_pow h2 hcount) (by omega)
        (by omega)
      have right := ih (start + split count) (count - split count) i (by omega) (by omega)
        (sub_split_le_pow h2 hcount) (by omega) (by omega)
      have hlength : ((leafHashes.drop start).take count).length = count := by
        simp only [length_take, length_drop]
        omega
      have whole := mth_split h.emptyHash h.nodeHash (D := (leafHashes.drop start).take count)
        (by omega)
      rw [hlength, take_take, Nat.min_eq_left (Nat.le_of_lt hlt), drop_take] at whole
      simp [computeSubtreeRoot, if_neg one, largestPowerOfTwoLessThan_eq h2 hle, left, right,
        Hashing.root, whole]

theorem computeRoot_eq (h : Hashing H) {D : List H} (hD : D.length ≤ 2 ^ 63) :
    computeRoot h D = some (h.root D) := by
  cases D with
  | nil => simp [computeRoot, Hashing.root, mth]
  | cons d D =>
    have := computeSubtreeRoot_eq h (d :: D) maxLevels 0 (d :: D).length 63 (by simp) (by omega) hD
      (by decide) (by omega)
    rw [drop_zero, take_length] at this
    rw [computeRoot, if_neg (by simp), this]

end JobAiPkg

/-!
## Inclusion proofs

The verifier climbs from a leaf hash along a path of siblings and compares what it
reaches with a root. It knows neither the size of the tree nor the position of the
leaf; with separate ranges for leaves and nodes that costs nothing.
-/

namespace JobAiPkg

open MerkleTree

variable {H : Type}

/-- One step of an audit path. -/
structure AiPkgAuditNode (H : Type) where
  sibling : H
  isRight : UInt32

structure AiPkgAuditPath (H : Type) where
  nodes : List (AiPkgAuditNode H)

namespace JobAiPkgInclusion

def computeRootFromPath (h : Hashing H) (leafHash : H) (path : AiPkgAuditPath H) : H :=
  path.nodes.foldl (fun current step =>
    if step.isRight = 1 then h.nodeHash current step.sibling
    else h.nodeHash step.sibling current) leafHash

def verify [DecidableEq H] (h : Hashing H) (leafHash : H) (path : AiPkgAuditPath H)
    (trustedRoot : H) : Bool := computeRootFromPath h leafHash path = trustedRoot

end JobAiPkgInclusion

open JobAiPkgInclusion

/-- What a step says, every number but one being read as the left side. -/
def AiPkgAuditNode.toSibling (step : AiPkgAuditNode H) : H × Bool := (step.sibling, step.isRight = 1)

def AiPkgAuditPath.toSiblings (path : AiPkgAuditPath H) : Siblings H :=
  path.nodes.map AiPkgAuditNode.toSibling

/-- The path as a log hands it out. -/
def AiPkgAuditPath.ofSiblings (path : Siblings H) : AiPkgAuditPath H :=
  ⟨path.map fun step => ⟨step.1, if step.2 then 1 else 0⟩⟩

theorem toSiblings_ofSiblings (path : Siblings H) :
    (AiPkgAuditPath.ofSiblings path).toSiblings = path := by
  have hstep : ∀ step : H × Bool,
      AiPkgAuditNode.toSibling ⟨step.1, if step.2 then 1 else 0⟩ = step := by
    rintro ⟨sibling, right⟩
    cases right <;> rfl
  rw [AiPkgAuditPath.ofSiblings, AiPkgAuditPath.toSiblings, List.map_map]
  exact (List.map_congr_left fun step _ => hstep step).trans path.map_id

theorem computeRootFromPath_eq (h : Hashing H) (leafHash : H) (path : AiPkgAuditPath H) :
    computeRootFromPath h leafHash path = rootFrom h.nodeHash leafHash path.toSiblings := by
  rw [rootFrom, AiPkgAuditPath.toSiblings, List.foldl_map]
  refine List.foldl_ext _ _ _ fun current step _ => ?_
  simp [climb, AiPkgAuditNode.toSibling]

theorem verify_iff_rootFrom [DecidableEq H] (h : Hashing H) {leafHash root : H}
    {path : AiPkgAuditPath H} :
    JobAiPkgInclusion.verify h leafHash path root = true ↔
      rootFrom h.nodeHash leafHash path.toSiblings = root := by
  rw [JobAiPkgInclusion.verify, decide_eq_true_iff, computeRootFromPath_eq]

/-- What hashing without collisions means for a tree: leaves and nodes apart, and none of them the
empty tree. -/
structure SeparateRanges {α : Type} (h : Hashing H) (leafHash : α → H) : Prop where
  leaf : Function.Injective leafHash
  node : Function.Injective2 h.nodeHash
  apart : ∀ d a b, h.nodeHash a b ≠ leafHash d
  leaf_ne_empty : ∀ d, leafHash d ≠ h.emptyHash
  node_ne_empty : ∀ a b, h.nodeHash a b ≠ h.emptyHash

/-- Against the root of a list exactly its members have a path, and only the paths of the positions
at which they stand. -/
theorem inclusion_exact {α : Type} [DecidableEq H] {h : Hashing H} {leafHash : α → H}
    (ideal : SeparateRanges h leafHash) {D : List α} (hD : D.length ≤ 2 ^ 63) :
    ∃ root, computeRoot h (D.map leafHash) = some root ∧
      (∀ d, (∃ path, JobAiPkgInclusion.verify h (leafHash d) path root = true) ↔ d ∈ D) ∧
      (∀ i d, D[i]? = some d →
        JobAiPkgInclusion.verify h (leafHash d)
          (.ofSiblings (auditPath h.emptyHash h.nodeHash (D.map leafHash) i)) root = true) ∧
      ∀ d path, JobAiPkgInclusion.verify h (leafHash d) path root = true →
        ∃ i, D[i]? = some d ∧
          path.toSiblings = auditPath h.emptyHash h.nodeHash (D.map leafHash) i ∧
          path.toSiblings.map Prod.snd = sides D.length i := by
  have hlength : (D.map leafHash).length = D.length := List.length_map leafHash
  have hget : ∀ (i : Nat) (d : α), (D.map leafHash)[i]? = some (leafHash d) ↔ D[i]? = some d := by
    intro i d
    rw [List.getElem?_map, Option.map_eq_some_iff]
    exact ⟨fun ⟨e, he, hsame⟩ => ideal.leaf hsame ▸ he, fun hd => ⟨d, hd, rfl⟩⟩
  have hcomplete : ∀ i d, D[i]? = some d →
      JobAiPkgInclusion.verify h (leafHash d)
        (.ofSiblings (auditPath h.emptyHash h.nodeHash (D.map leafHash) i))
        (h.root (D.map leafHash)) = true := by
    intro i d hd
    rw [verify_iff_rootFrom, toSiblings_ofSiblings]
    exact rootFrom_auditPath _ _ _ _ _ _ rfl ((hget i d).mpr hd)
  have hsound : ∀ d path,
      JobAiPkgInclusion.verify h (leafHash d) path (h.root (D.map leafHash)) = true →
      ∃ i, D[i]? = some d ∧
        path.toSiblings = auditPath h.emptyHash h.nodeHash (D.map leafHash) i := by
    intro d path hpath
    rw [verify_iff_rootFrom] at hpath
    have hleaves : ∀ x ∈ D.map leafHash, ∀ a b, h.nodeHash a b ≠ x := by
      intro x hx
      obtain ⟨e, -, rfl⟩ := List.mem_map.mp hx
      exact ideal.apart e
    obtain ⟨i, hi, heq⟩ := eq_auditPath_of_rootFrom ideal.node (ideal.apart d)
      ideal.node_ne_empty (ideal.leaf_ne_empty d) _ _ _ rfl hleaves hpath
    exact ⟨i, (hget i d).mp hi, heq⟩
  refine ⟨h.root (D.map leafHash), computeRoot_eq h (hlength.symm ▸ hD), ?_, hcomplete, ?_⟩
  · intro d
    constructor
    · rintro ⟨path, hpath⟩
      obtain ⟨i, hi, -⟩ := hsound d path hpath
      exact List.mem_of_getElem? hi
    · intro hd
      obtain ⟨i, hi⟩ := List.getElem?_of_mem hd
      exact ⟨_, hcomplete i d hi⟩
  · intro d path hpath
    obtain ⟨i, hi, heq⟩ := hsound d path hpath
    refine ⟨i, hi, heq, ?_⟩
    rw [heq]
    exact map_snd_auditPath _ _ _ _ _ hlength

/-- Leaves at even numbers, nodes at odd ones and the empty tree at zero. -/
def parityHashing : Hashing Nat := ⟨0, fun a b => 2 * Nat.pair a b + 1, 0⟩

theorem parityHashing_ideal : SeparateRanges parityHashing fun d => 2 * d + 2 where
  leaf a b h := by
    dsimp only at h
    omega
  node a b c d h := by
    have hpair : 2 * Nat.pair a c + 1 = 2 * Nat.pair b d + 1 := h
    exact Nat.pair_eq_pair.mp (by omega)
  apart d a b := by
    have hnode : parityHashing.nodeHash a b = 2 * Nat.pair a b + 1 := rfl
    omega
  leaf_ne_empty d := Nat.succ_ne_zero _
  node_ne_empty a b := Nat.succ_ne_zero _

/-- Three leaves: the second is in the tree and the number seven is not. -/
theorem inclusion_exact_three :
    ∃ root, computeRoot parityHashing [4, 6, 8] = some root ∧
      (∃ path, JobAiPkgInclusion.verify parityHashing 6 path root = true) ∧
      ¬∃ path, JobAiPkgInclusion.verify parityHashing 16 path root = true := by
  obtain ⟨root, hroot, hmem, -, -⟩ :=
    inclusion_exact parityHashing_ideal (show [1, 2, 3].length ≤ 2 ^ 63 by decide)
  exact ⟨root, hroot, (hmem 2).mpr (by decide), mt (hmem 7).mp (by decide)⟩

end JobAiPkg
