import Mathlib.Data.List.Basic

/-!
# Terminated pieces

A text cut behind every end mark. What follows the last mark is a piece too, if
it is not empty.
-/

namespace Terminated

open List

universe u

variable {α : Type u} {mark : α}

/-- Texts in which every piece has its mark. -/
inductive Closed (mark : α) : List α → Prop where
  | nil : Closed mark []
  | cons {piece text : List α} (hpiece : mark ∉ piece) (htext : Closed mark text) :
      Closed mark (piece ++ mark :: text)

theorem exists_first_piece {text : List α} (h : mark ∈ text) :
    ∃ piece rest, mark ∉ piece ∧ text = piece ++ mark :: rest := by
  obtain ⟨piece, rest, hsplit, hpiece⟩ := eq_append_cons_of_mem h
  exact ⟨piece, rest, hpiece, hsplit⟩

/-- A mark closes any text. -/
theorem closed_append_mark (text : List α) : Closed mark (text ++ [mark]) := by
  induction hn : text.length using Nat.strongRecOn generalizing text with
  | ind n ih =>
    by_cases h : mark ∈ text
    · obtain ⟨piece, rest, hpiece, rfl⟩ := exists_first_piece h
      rw [append_assoc]
      refine .cons hpiece (ih rest.length ?_ rest rfl)
      rw [← hn, length_append, length_cons]
      omega
    · exact .cons h .nil

theorem Closed.append {first second : List α} (h : Closed mark first) (h' : Closed mark second) :
    Closed mark (first ++ second) := by
  induction h with
  | nil => exact h'
  | cons hpiece _ ih =>
    rw [append_assoc]
    exact .cons hpiece ih

theorem Closed.flatMap {β : Type*} {items : List β} {write : β → List α}
    (h : ∀ item ∈ items, Closed mark (write item)) : Closed mark (items.flatMap write) := by
  induction items with
  | nil => exact .nil
  | cons item items ih =>
    exact (h item mem_cons_self).append (ih fun other hother =>
      h other (mem_cons_of_mem _ hother))

variable [DecidableEq α]

/-- The pieces of a text in front of which `acc` stands. -/
def piecesFrom (mark : α) (acc : List α) : List α → List (List α)
  | [] => if acc = [] then [] else [acc]
  | a :: text =>
    if a = mark then acc :: piecesFrom mark [] text else piecesFrom mark (acc ++ [a]) text

def pieces (mark : α) (text : List α) : List (List α) := piecesFrom mark [] text

theorem piecesFrom_append {acc piece : List α} (h : mark ∉ piece) (text : List α) :
    piecesFrom mark acc (piece ++ text) = piecesFrom mark (acc ++ piece) text := by
  induction piece generalizing acc with
  | nil => rw [nil_append, append_nil]
  | cons a piece ih =>
    have ha : a ≠ mark := fun heq => h (heq ▸ mem_cons_self)
    rw [cons_append, piecesFrom, if_neg ha, ih fun hmem => h (mem_cons_of_mem _ hmem),
      append_assoc, singleton_append]

/-- A first piece with its mark. -/
theorem pieces_cons {piece : List α} (h : mark ∉ piece) (text : List α) :
    pieces mark (piece ++ mark :: text) = piece :: pieces mark text := by
  rw [pieces, piecesFrom_append h, piecesFrom, if_pos rfl]
  rfl

/-- The pieces of a closed text come before those of what follows. -/
theorem Closed.pieces_append {first : List α} (h : Closed mark first) (second : List α) :
    pieces mark (first ++ second) = pieces mark first ++ pieces mark second := by
  induction h with
  | nil => rfl
  | cons hpiece _ ih =>
    rw [append_assoc, cons_append, pieces_cons hpiece, pieces_cons hpiece, ih, cons_append]

end Terminated
