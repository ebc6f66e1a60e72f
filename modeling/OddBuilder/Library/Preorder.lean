import Mathlib.Data.List.Nodup
import Mathlib.Data.List.Infix

/-!
# Preorder of a tree of names

A tree is given by the names under every location, in any order. The preorder of a
location lists what stands below it, every location in front of what stands below
that, down to a depth. It lists each location below once.
-/

namespace Preorder

open List

variable {N : Type*} (next : List N → List N)

/-- The locations below one, to a depth. -/
def preorder : Nat → List N → List (List N)
  | 0, _ => []
  | depth + 1, loc =>
    (next loc).flatMap fun n => (loc ++ [n]) :: preorder depth (loc ++ [n])

/-- Every step from `loc` along the names is to a name that stands there. -/
def Along : List N → List N → Prop
  | _, [] => True
  | loc, n :: names => n ∈ next loc ∧ Along (loc ++ [n]) names

variable {next}

theorem along_append {loc front back : List N} :
    Along next loc (front ++ back) ↔ Along next loc front ∧ Along next (loc ++ front) back := by
  induction front generalizing loc with
  | nil => simp [Along]
  | cons n front ih =>
    rw [cons_append, Along, Along, ih, and_assoc, append_assoc]
    rfl

theorem mem_preorder {depth : Nat} {loc r : List N} :
    r ∈ preorder next depth loc ↔
      ∃ names, names ≠ [] ∧ names.length ≤ depth ∧ r = loc ++ names ∧ Along next loc names := by
  induction depth generalizing loc r with
  | zero =>
    constructor
    · intro h
      simp [preorder] at h
    · rintro ⟨names, hne, hlength, -⟩
      exact absurd (length_eq_zero_iff.mp (Nat.le_zero.mp hlength)) hne
  | succ depth ih =>
    rw [preorder, mem_flatMap]
    constructor
    · rintro ⟨n, hn, hr⟩
      rcases mem_cons.mp hr with rfl | hr
      · exact ⟨[n], by simp, by simp, rfl, hn, trivial⟩
      · obtain ⟨names, -, hlength, rfl, halong⟩ := ih.mp hr
        refine ⟨n :: names, by simp, ?_, by simp, hn, halong⟩
        rw [length_cons]
        omega
    · rintro ⟨_ | ⟨n, names⟩, hne, hlength, rfl, halong⟩
      · exact absurd rfl hne
      · refine ⟨n, halong.1, ?_⟩
        by_cases hnil : names = []
        · subst hnil
          exact mem_cons_self
        · refine mem_cons_of_mem _ (ih.mpr ⟨names, hnil, ?_, by simp, halong.2⟩)
          rw [length_cons] at hlength
          omega

/-- Nothing stands below a location without names. -/
theorem preorder_leaf {loc : List N} (hleaf : next loc = []) (depth : Nat) :
    preorder next depth loc = [] := by
  cases depth with
  | zero => rfl
  | succ depth =>
    rw [preorder, hleaf]
    rfl

/-- No location is listed twice. -/
theorem nodup_preorder (hnext : ∀ loc, (next loc).Nodup) (depth : Nat) (loc : List N) :
    (preorder next depth loc).Nodup := by
  induction depth generalizing loc with
  | zero => exact nodup_nil
  | succ depth ih =>
    rw [preorder, nodup_flatMap]
    constructor
    · intro n _
      rw [nodup_cons]
      refine ⟨?_, ih _⟩
      intro h
      obtain ⟨names, hne, -, heq, -⟩ := mem_preorder.mp h
      exact hne (by simpa using heq)
    · refine (hnext loc).imp ?_
      -- What stands below two different names differs in these names.
      intro n k hnk r hrn hrk
      have hname (m : N) (hr : r ∈ (loc ++ [m]) :: preorder next depth (loc ++ [m])) :
          ∃ names, r = loc ++ m :: names := by
        rcases mem_cons.mp hr with rfl | hr
        · exact ⟨[], rfl⟩
        · obtain ⟨names, -, -, rfl, -⟩ := mem_preorder.mp hr
          exact ⟨names, by simp⟩
      obtain ⟨names, rfl⟩ := hname n hrn
      obtain ⟨names', heq⟩ := hname k hrk
      exact hnk (List.cons.inj (append_cancel_left heq)).1

end Preorder
