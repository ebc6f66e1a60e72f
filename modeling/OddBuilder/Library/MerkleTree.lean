import Mathlib.Algebra.Group.Nat.Defs
import Mathlib.Data.Nat.Log
import Mathlib.Data.Nat.Pairing
import Mathlib.Data.List.Basic
import Mathlib.Data.List.Induction

/-!
# History trees

The hash of a list of leaves in which every list of two or more leaves is split
at the largest power of two below its length, and the proofs that one such list
begins with another. Nothing is assumed of the node hash unless a section says so.
-/

namespace MerkleTree

variable {n j : Nat}

universe u

/-- The largest power of two below `n`, for `n` from two on. -/
def split (n : Nat) : Nat := 2 ^ Nat.log 2 (n - 1)

theorem split_pos (n : Nat) : 0 < split n := Nat.two_pow_pos _

theorem split_lt (h : 2 ≤ n) : split n < n := by
  have := Nat.pow_log_le_self 2 (show n - 1 ≠ 0 by omega)
  rw [split]
  omega

theorem le_two_split (h : 2 ≤ n) : n ≤ 2 * split n := by
  have := Nat.lt_pow_succ_log_self (show 1 < 2 by decide) (n - 1)
  rw [split]
  omega

theorem split_unique {i : Nat} (lower : 2 ^ i < n) (upper : n ≤ 2 * 2 ^ i) : split n = 2 ^ i := by
  have : Nat.log 2 (n - 1) = i := by
    refine Nat.log_eq_of_pow_le_of_lt_pow (by omega) ?_
    omega
  rw [split, this]

/-- A shorter list that reaches beyond the split is split at the same place. -/
theorem split_mono {m : Nat} (hn : 2 ≤ n) (hmn : m ≤ n) (h : split n < m) : split m = split n :=
  split_unique h (hmn.trans (le_two_split hn))

/-- The split halves the bound on a length. -/
theorem split_le_pow (hn : 2 ≤ n) (h : n ≤ 2 ^ (j + 1)) : split n ≤ 2 ^ j := by
  have hlt : split n < 2 ^ (j + 1) := (split_lt hn).trans_le h
  exact Nat.pow_le_pow_right (by decide) (Nat.lt_succ_iff.mp ((Nat.pow_lt_pow_iff_right (by decide)).mp hlt))

theorem sub_split_le_pow (hn : 2 ≤ n) (h : n ≤ 2 ^ (j + 1)) : n - split n ≤ 2 ^ j := by
  have := le_two_split hn
  omega

/-- A bound that holds for two or more leaves is not `2 ^ 0`. -/
theorem exists_level (hn : 2 ≤ n) (h : n ≤ 2 ^ j) : ∃ i, j = i + 1 := by
  cases j with
  | zero => omega
  | succ i => exact ⟨i, rfl⟩

theorem split_two_pow (i : Nat) : split (2 ^ (i + 1)) = 2 ^ i :=
  split_unique (Nat.pow_lt_pow_right (by decide) (Nat.lt_succ_self i)) (by omega)

/-- A power of two below `n` is at most the split. -/
theorem two_pow_le_split {i : Nat} (h : 2 ^ i < n) : 2 ^ i ≤ split n := by
  have hlog : i ≤ Nat.log 2 (n - 1) := Nat.le_log_of_pow_le (by decide) (by omega)
  exact Nat.pow_le_pow_right (by decide) hlog

variable {H : Type u}

/-- The hash of a list of leaves; `empty` stands for the list without leaves. -/
def mth (empty : H) (node : H → H → H) (D : List H) : H :=
  match D with
  | [] => empty
  | [d] => d
  | a :: b :: rest =>
    node (mth empty node ((a :: b :: rest).take (split (a :: b :: rest).length)))
      (mth empty node ((a :: b :: rest).drop (split (a :: b :: rest).length)))
termination_by D.length
decreasing_by
  · have := split_lt (n := (a :: b :: rest).length) (by simp)
    simp only [List.length_take]
    omega
  · have := split_pos (a :: b :: rest).length
    have : 0 < (a :: b :: rest).length := by simp
    simp only [List.length_drop]
    omega

theorem mth_singleton (empty : H) (node : H → H → H) (d : H) : mth empty node [d] = d := by
  rw [mth]

theorem mth_split (empty : H) (node : H → H → H) {D : List H} (h : 2 ≤ D.length) :
    mth empty node D =
      node (mth empty node (D.take (split D.length))) (mth empty node (D.drop (split D.length))) := by
  match D, h with
  | a :: b :: rest, _ => rw [mth]

/-- The proof that the first `m` leaves of `D` are a history of `D`. The flag says that the
hash of these `m` leaves is known to the reader. -/
def subproof (empty : H) (node : H → H → H) (m : Nat) (D : List H) (known : Bool) : List H :=
  if m = D.length ∨ D.length < 2 then if known then [] else [mth empty node D]
  else if m ≤ split D.length then
    subproof empty node m (D.take (split D.length)) known ++
      [mth empty node (D.drop (split D.length))]
  else
    subproof empty node (m - split D.length) (D.drop (split D.length)) false ++
      [mth empty node (D.take (split D.length))]
termination_by D.length
decreasing_by
  · have := split_lt (n := D.length) (by omega)
    simp only [List.length_take]
    omega
  · have := split_pos D.length
    simp only [List.length_drop]
    omega

section Subproof

variable (empty : H) (node : H → H → H) {m : Nat} {D : List H}

theorem subproof_whole (known : Bool) (h : m = D.length) :
    subproof empty node m D known = if known then [] else [mth empty node D] := by
  rw [subproof, if_pos (Or.inl h)]

theorem subproof_left (known : Bool) (hm : m < D.length) (h0 : 0 < m) (h : m ≤ split D.length) :
    subproof empty node m D known = subproof empty node m (D.take (split D.length)) known ++
      [mth empty node (D.drop (split D.length))] := by
  rw [subproof, if_neg (by omega), if_pos h]

theorem subproof_right (known : Bool) (hm : m < D.length) (h0 : 0 < m) (h : split D.length < m) :
    subproof empty node m D known =
      subproof empty node (m - split D.length) (D.drop (split D.length)) false ++
        [mth empty node (D.take (split D.length))] := by
  rw [subproof, if_neg (by omega), if_neg (by omega)]

end Subproof

section Binding

variable {empty : H} {node : H → H → H} (inj : Function.Injective2 node)
include inj

/-- Lists of one length with the same hash are the same. -/
theorem mth_injective (n : Nat) : ∀ D E : List H, D.length = n → E.length = n →
    mth empty node D = mth empty node E → D = E := by
  induction n using Nat.strong_induction_on with
  | _ n ih =>
    intro D E hD hE heq
    rcases Nat.lt_or_ge n 2 with small | large
    · match D, E, hD, hE with
      | [], [], _, _ => rfl
      | [d], [e], _, _ =>
        rw [mth_singleton, mth_singleton] at heq
        rw [heq]
      | [], _ :: _, hD, hE => simp at hD hE; omega
      | _ :: _, [], hD, hE => simp at hD hE; omega
      | _ :: _ :: _, _, hD, _ => simp at hD; omega
      | _, _ :: _ :: _, _, hE => simp at hE; omega
    · have splitD := mth_split empty node (D := D) (by omega)
      have splitE := mth_split empty node (D := E) (by omega)
      rw [splitD, splitE, hD, hE] at heq
      obtain ⟨hl, hr⟩ := inj heq
      have hlt := split_lt large
      have hpos := split_pos n
      have left := ih (split n) hlt (D.take (split n)) (E.take (split n)) (by simp; omega)
        (by simp; omega) hl
      have right := ih (n - split n) (by omega) (D.drop (split n)) (E.drop (split n)) (by simp; omega)
        (by simp; omega) hr
      rw [← List.take_append_drop (split n) D, ← List.take_append_drop (split n) E, left, right]

end Binding

/-- The hashes beside the way from a leaf to the root, with a flag for those on its right. -/
abbrev Siblings (H : Type u) : Type u := List (H × Bool)

/-- One step towards the root. -/
def climb (node : H → H → H) (current : H) (step : H × Bool) : H :=
  if step.2 then node current step.1 else node step.1 current

def rootFrom (node : H → H → H) (leaf : H) (path : Siblings H) : H := path.foldl (climb node) leaf

/-- The path of the leaf at an index, from the leaf on. -/
def auditPath (empty : H) (node : H → H → H) (D : List H) (i : Nat) : Siblings H :=
  if D.length < 2 then []
  else if i < split D.length then
    auditPath empty node (D.take (split D.length)) i ++ [(mth empty node (D.drop (split D.length)), true)]
  else
    auditPath empty node (D.drop (split D.length)) (i - split D.length) ++
      [(mth empty node (D.take (split D.length)), false)]
termination_by D.length
decreasing_by
  · have := split_lt (n := D.length) (by omega)
    simp only [List.length_take]
    omega
  · have := split_pos D.length
    simp only [List.length_drop]
    omega

/-- On which sides the siblings of an index are, in a tree of `n` leaves. -/
def sides (n i : Nat) : List Bool :=
  if n < 2 then []
  else if i < split n then sides (split n) i ++ [true]
  else sides (n - split n) (i - split n) ++ [false]
termination_by n
decreasing_by
  · exact split_lt (by omega)
  · have := split_pos n
    omega

section Paths

variable (empty : H) (node : H → H → H)

theorem rootFrom_concat (leaf : H) (path : Siblings H) (step : H × Bool) :
    rootFrom node leaf (path ++ [step]) = climb node (rootFrom node leaf path) step := by
  rw [rootFrom, rootFrom, List.foldl_concat]

theorem auditPath_short {D : List H} (h : D.length < 2) (i : Nat) : auditPath empty node D i = [] := by
  rw [auditPath, if_pos h]

theorem auditPath_left {D : List H} {i : Nat} (h : 2 ≤ D.length) (hi : i < split D.length) :
    auditPath empty node D i = auditPath empty node (D.take (split D.length)) i ++
      [(mth empty node (D.drop (split D.length)), true)] := by
  rw [auditPath, if_neg (by omega), if_pos hi]

theorem auditPath_right {D : List H} {i : Nat} (h : 2 ≤ D.length) (hi : split D.length ≤ i) :
    auditPath empty node D i = auditPath empty node (D.drop (split D.length)) (i - split D.length) ++
      [(mth empty node (D.take (split D.length)), false)] := by
  rw [auditPath, if_neg (by omega), if_neg (by omega)]

/-- The two parts of a tree of two or more leaves. -/
theorem parts {D : List H} (h : 2 ≤ D.length) :
    (D.take (split D.length)).length = split D.length ∧
      (D.drop (split D.length)).length = D.length - split D.length ∧
      mth empty node D = node (mth empty node (D.take (split D.length)))
        (mth empty node (D.drop (split D.length))) := by
  have hlt := split_lt h
  refine ⟨?_, List.length_drop, mth_split empty node h⟩
  rw [List.length_take, Nat.min_eq_left (Nat.le_of_lt hlt)]

theorem map_snd_auditPath (n : Nat) : ∀ (D : List H) (i : Nat), D.length = n →
    (auditPath empty node D i).map Prod.snd = sides n i := by
  induction n using Nat.strong_induction_on with
  | _ n ih =>
    rintro D i rfl
    by_cases hsmall : D.length < 2
    · rw [auditPath_short empty node hsmall, sides, if_pos hsmall]
      rfl
    have h2 : 2 ≤ D.length := by omega
    obtain ⟨htake, hdrop, -⟩ := parts empty node h2
    have hpos := split_pos D.length
    have hlt := split_lt h2
    rw [sides, if_neg hsmall]
    by_cases hi : i < split D.length
    · rw [auditPath_left empty node h2 hi, List.map_append, if_pos hi, ih _ hlt _ i htake]
      rfl
    · rw [auditPath_right empty node h2 (by omega), List.map_append, if_neg hi,
        ih _ (by omega) _ _ hdrop]
      rfl

/-- The path of an index leads from its leaf to the root. -/
theorem rootFrom_auditPath (n : Nat) : ∀ (D : List H) (i : Nat) (leaf : H), D.length = n →
    D[i]? = some leaf → rootFrom node leaf (auditPath empty node D i) = mth empty node D := by
  induction n using Nat.strong_induction_on with
  | _ n ih =>
    rintro D i leaf rfl hleaf
    by_cases hsmall : D.length < 2
    · rw [auditPath_short empty node hsmall]
      have hi := (List.getElem?_eq_some_iff.mp hleaf).1
      obtain ⟨d, rfl⟩ := List.length_eq_one_iff.mp (by omega : D.length = 1)
      obtain rfl : i = 0 := by simpa using hi
      rw [mth_singleton]
      exact (Option.some.inj hleaf).symm
    have h2 : 2 ≤ D.length := by omega
    obtain ⟨htake, hdrop, hwhole⟩ := parts empty node h2
    have hpos := split_pos D.length
    have hlt := split_lt h2
    rw [hwhole]
    by_cases hi : i < split D.length
    · rw [auditPath_left empty node h2 hi, rootFrom_concat, ih _ hlt _ i leaf htake
        (by rw [List.getElem?_take, if_pos hi, hleaf])]
      rfl
    · rw [auditPath_right empty node h2 (by omega), rootFrom_concat, ih _ (by omega) _ _ leaf hdrop
        (by rw [List.getElem?_drop, Nat.add_sub_cancel' (by omega), hleaf])]
      rfl

end Paths

section Soundness

variable {empty : H} {node : H → H → H} (inj : Function.Injective2 node)

/-- What is no node is reached by the path without steps only. -/
theorem rootFrom_eq_leaf {leaf : H} {root : H} {path : Siblings H} (hroot : ∀ a b, node a b ≠ root)
    (h : rootFrom node leaf path = root) : path = [] ∧ leaf = root := by
  induction path using List.reverseRecOn with
  | nil => exact ⟨rfl, h⟩
  | append_singleton path step _ =>
    rw [rootFrom_concat, climb] at h
    split at h
    · exact absurd h (hroot _ _)
    · exact absurd h (hroot _ _)

include inj

/-- A path to the root is the path of an index where the leaf stands. -/
theorem eq_auditPath_of_rootFrom {leaf : H} (hleaf : ∀ a b, node a b ≠ leaf)
    (hempty : ∀ a b, node a b ≠ empty) (hne : leaf ≠ empty) (n : Nat) :
    ∀ (D : List H) (path : Siblings H), D.length = n → (∀ d ∈ D, ∀ a b, node a b ≠ d) →
      rootFrom node leaf path = mth empty node D →
      ∃ i, D[i]? = some leaf ∧ path = auditPath empty node D i := by
  induction n using Nat.strong_induction_on with
  | _ n ih =>
    rintro D path rfl hleaves hpath
    by_cases hsmall : D.length < 2
    · match D, hsmall with
      | [], _ =>
        rw [mth] at hpath
        exact absurd (rootFrom_eq_leaf hempty hpath).2 hne
      | [d], _ =>
        rw [mth_singleton] at hpath
        obtain ⟨rfl, rfl⟩ := rootFrom_eq_leaf (hleaves d List.mem_cons_self) hpath
        exact ⟨0, rfl, (auditPath_short empty node (by simp) 0).symm⟩
    have h2 : 2 ≤ D.length := by omega
    obtain ⟨htake, hdrop, hwhole⟩ := parts empty node h2
    have hpos := split_pos D.length
    have hlt := split_lt h2
    induction path using List.reverseRecOn with
    | nil =>
      rw [hwhole] at hpath
      exact absurd hpath.symm (hleaf _ _)
    | append_singleton path step _ =>
      obtain ⟨sibling, right⟩ := step
      rw [rootFrom_concat, hwhole] at hpath
      cases right with
      | true =>
        obtain ⟨hleft, hsibling⟩ := inj hpath
        obtain ⟨i, hi, rfl⟩ := ih _ hlt _ path htake
          (fun d hd => hleaves d (List.mem_of_mem_take hd)) hleft
        have hbound : i < split D.length := by
          have hi' := (List.getElem?_eq_some_iff.mp hi).1
          omega
        rw [List.getElem?_take, if_pos hbound] at hi
        refine ⟨i, hi, ?_⟩
        rw [auditPath_left empty node h2 hbound, ← hsibling]
      | false =>
        obtain ⟨hsibling, hright⟩ := inj hpath
        obtain ⟨i, hi, rfl⟩ := ih _ (by omega) _ path hdrop
          (fun d hd => hleaves d (List.mem_of_mem_drop hd)) hright
        rw [List.getElem?_drop] at hi
        refine ⟨split D.length + i, hi, ?_⟩
        rw [auditPath_right empty node h2 (Nat.le_add_right _ _), Nat.add_sub_cancel_left, ← hsibling]

end Soundness

end MerkleTree
