import Mathlib.Logic.Function.Basic
import Mathlib.Data.List.Pairwise

/-!
# Copying in place

Assignments `dst := src` made one after the other in one memory. They come to a
simultaneous assignment exactly if each that reads where an earlier one wrote
finds there what stood there before.
-/

namespace SequentialCopy

universe u v

variable {ι : Type u} {α : Type v} [DecidableEq ι]

structure Move (ι : Type u) where
  src : ι
  dst : ι

/-- The memory behind the moves. -/
def copies : List (Move ι) → (ι → α) → ι → α
  | [], f => f
  | m :: moves, f => copies moves (Function.update f m.dst (f m.src))

variable {moves : List (Move ι)} {f : ι → α}

/-- No two moves write the same place. -/
def Separate (moves : List (Move ι)) : Prop := moves.Pairwise fun m m' => m.dst ≠ m'.dst

theorem copies_frame {x : ι} (hx : ∀ m ∈ moves, m.dst ≠ x) : copies moves f x = f x := by
  induction moves generalizing f with
  | nil => rfl
  | cons m moves ih =>
    rw [copies, ih fun m' hm' => hx m' (List.mem_cons_of_mem _ hm')]
    exact Function.update_of_ne (hx m (by simp)).symm _ _

/-- A move from a place that is not written copies what stands there from the start. -/
theorem copies_unread (hsep : Separate moves) {m : Move ι} (hm : m ∈ moves)
    (hsrc : ∀ m' ∈ moves, m'.dst ≠ m.src) : copies moves f m.dst = f m.src := by
  induction moves generalizing f with
  | nil => cases hm
  | cons first moves ih =>
    obtain ⟨hfirst, hrest⟩ := List.pairwise_cons.1 hsep
    rcases List.mem_cons.1 hm with rfl | hm
    · rw [copies, copies_frame fun m' hm' => (hfirst m' hm').symm]
      exact Function.update_self _ _ _
    · rw [copies, ih hrest hm fun m' hm' => hsrc m' (List.mem_cons_of_mem _ hm')]
      exact Function.update_of_ne (hsrc first (by simp)).symm _ _

/-- One after the other as at once. -/
theorem copies_iff (hsep : Separate moves) :
    (∀ m ∈ moves, copies moves f m.dst = f m.src) ↔
      moves.Pairwise fun m m' => m.dst = m'.src → f m'.src = f m.src := by
  induction moves generalizing f with
  | nil => simp
  | cons m moves ih =>
    obtain ⟨hfirst, hrest⟩ := List.pairwise_cons.1 hsep
    have hwritten : copies (m :: moves) f m.dst = f m.src := by
      rw [copies, copies_frame fun m' hm' => (hfirst m' hm').symm]
      exact Function.update_self _ _ _
    -- What the other moves read is as before the first one.
    have hsame : (∀ m' ∈ moves, m.dst = m'.src → f m'.src = f m.src) →
        ∀ m' ∈ moves, Function.update f m.dst (f m.src) m'.src = f m'.src := by
      intro hread m' hm'
      by_cases heq : m'.src = m.dst
      · rw [heq, Function.update_self, ← heq]
        exact (hread m' hm' heq.symm).symm
      · exact Function.update_of_ne heq _ _
    have hrun : (∀ m' ∈ moves, m.dst = m'.src → f m'.src = f m.src) →
        ((∀ m' ∈ moves, copies (m :: moves) f m'.dst = f m'.src) ↔
          moves.Pairwise fun m m' => m.dst = m'.src → f m'.src = f m.src) := by
      intro hread
      have hupdate := hsame hread
      have hih := ih (f := Function.update f m.dst (f m.src)) hrest
      rw [List.Pairwise.iff_of_mem fun hm hm' => by rw [hupdate _ hm, hupdate _ hm']] at hih
      rw [← hih]
      refine forall₂_congr fun m' hm' => ?_
      rw [copies, hupdate m' hm']
    rw [List.forall_mem_cons, List.pairwise_cons]
    constructor
    · rintro ⟨-, hright⟩
      have hread : ∀ m' ∈ moves, m.dst = m'.src → f m'.src = f m.src := by
        intro m' hm' heq
        rw [← hright m' hm', copies,
          copies_unread hrest hm' fun m'' hm'' => heq ▸ (hfirst m'' hm'').symm, ← heq,
          Function.update_self]
      exact ⟨hread, (hrun hread).1 hright⟩
    · rintro ⟨hread, hpairs⟩
      exact ⟨hwritten, (hrun hread).2 hpairs⟩

end SequentialCopy
