import Mathlib.Data.List.Basic

/-!
# Folds over chunks

A left fold taken chunk by chunk. Without a seed every chunk contributes the
product of its elements, and associativity is enough. With the seed in front of
every chunk the operation has to absorb the later copies of it.
-/

namespace ChunkedFold

open List

universe u

variable {T : Type u} (op : T → T → T)

/-- The fold of a chunk from its first element; `otherwise` of an empty one. -/
def unseeded (otherwise : T) : List T → T
  | [] => otherwise
  | x :: chunk => chunk.foldl op x

/-- A second copy of the seed, at the front or further on, has no effect. -/
structure Absorbs (init : T) : Prop where
  front : ∀ x, op init (op init x) = op init x
  later : ∀ x y, op (op init x) (op init y) = op (op init x) y

variable {op}

/-- One chunk of one element and two such chunks need all of it. -/
theorem absorbs_of_seeded {init : T}
    (hone : ∀ x, op init (op init x) = op init x)
    (htwo : ∀ x y, op (op init (op init x)) (op init y) = op (op init x) y) :
    Absorbs op init := by
  constructor
  · exact hone
  · intro x y
    have hseeded := htwo x y
    rwa [hone x] at hseeded

/-- A left identity is absorbed. -/
theorem absorbs_of_left_id {init : T} (hid : ∀ x, op init x = x) : Absorbs op init := by
  constructor
  · intro x
    rw [hid]
  · intro x y
    rw [hid y]

section Associative

variable (hassoc : ∀ a b c, op (op a b) c = op a (op b c))

include hassoc

theorem foldl_op (a b : T) (l : List T) : l.foldl op (op a b) = op a (l.foldl op b) := by
  induction l generalizing b with
  | nil => rfl
  | cons x l ih => rw [foldl_cons, foldl_cons, hassoc, ih]

theorem op_unseeded {otherwise : T} (a : T) {chunk : List T} (hne : chunk ≠ []) :
    op a (unseeded op otherwise chunk) = chunk.foldl op a := by
  cases chunk with
  | nil => exact absurd rfl hne
  | cons x chunk => exact (foldl_op hassoc a x chunk).symm

/-- The products of the chunks, one after the other. -/
theorem foldl_unseeded {otherwise : T} (init : T) {chunks : List (List T)}
    (hne : ∀ chunk ∈ chunks, chunk ≠ []) :
    (chunks.map (unseeded op otherwise)).foldl op init = chunks.flatten.foldl op init := by
  induction chunks generalizing init with
  | nil => rfl
  | cons chunk chunks ih =>
    rw [map_cons, foldl_cons, op_unseeded hassoc init (hne chunk (by simp)),
      ih _ fun chunk' hmem => hne chunk' (mem_cons_of_mem _ hmem), flatten_cons,
      foldl_append]

/-- Behind a first element the seeds of the chunks are absorbed. -/
theorem foldl_seeded_from {init : T} (habsorbs : Absorbs op init) (a : T)
    {chunks : List (List T)} (hne : ∀ chunk ∈ chunks, chunk ≠ []) :
    (chunks.map (List.foldl op init)).foldl op (op init a) =
      chunks.flatten.foldl op (op init a) := by
  induction chunks generalizing a with
  | nil => rfl
  | cons chunk chunks ih =>
    obtain ⟨x, rest, rfl⟩ := exists_cons_of_ne_nil (hne chunk (by simp))
    have hchunk : op (op init a) ((x :: rest).foldl op init) = op init (op a (rest.foldl op x)) := by
      rw [foldl_cons, foldl_op hassoc, habsorbs.later, hassoc]
    have hplain : (x :: rest).foldl op (op init a) = op init (op a (rest.foldl op x)) := by
      rw [foldl_cons, foldl_op hassoc, hassoc]
    rw [map_cons, foldl_cons, hchunk,
      ih _ fun chunk' hmem => hne chunk' (mem_cons_of_mem _ hmem), flatten_cons,
      foldl_append, hplain]

theorem foldl_seeded {init : T} (habsorbs : Absorbs op init) {chunks : List (List T)}
    (hne : ∀ chunk ∈ chunks, chunk ≠ []) :
    (chunks.map (List.foldl op init)).foldl op init = chunks.flatten.foldl op init := by
  cases chunks with
  | nil => rfl
  | cons chunk chunks =>
    obtain ⟨x, rest, rfl⟩ := exists_cons_of_ne_nil (hne chunk (by simp))
    have hchunk : (x :: rest).foldl op init = op init (rest.foldl op x) := by
      rw [foldl_cons, foldl_op hassoc]
    rw [map_cons, foldl_cons, hchunk, habsorbs.front,
      foldl_seeded_from hassoc habsorbs _
        fun chunk' hmem => hne chunk' (mem_cons_of_mem _ hmem),
      flatten_cons, foldl_append, hchunk]

end Associative

end ChunkedFold
