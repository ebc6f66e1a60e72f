import OddBuilder.Library.Intervals
import Mathlib.Order.Interval.Set.Basic

/-!
# Separated lists of intervals as sets of points

A separated list is the list of maximal runs of a set of naturals. Inserting
an interval, cutting one out and asking whether one is contained are told by
the sets alone; that an interval of points lies in a single member is where
the gaps between members are needed.
-/

namespace Intervals

open List

universe u

variable {α : Type u} [Bounds α]

/-- The points that some member covers. -/
def points (l : List α) : Set Nat := {x | ∃ a ∈ l, Covers a x}

theorem mem_points {l : List α} {x : Nat} : x ∈ points l ↔ ∃ a ∈ l, Covers a x := Iff.rfl

@[simp] theorem points_nil : points ([] : List α) = ∅ := by
  ext x
  simp [mem_points]

theorem points_cons (a : α) (l : List α) :
    points (a :: l) = Set.Ico (lo a) (hi a) ∪ points l := by
  ext x
  simp [mem_points, Covers]

theorem mem_points_flatMap {l : List α} {pieces : α → List α} {x : Nat} :
    x ∈ points (l.flatMap pieces) ↔ ∃ a ∈ l, x ∈ points (pieces a) := by
  constructor
  · rintro ⟨p, hp, hx⟩
    obtain ⟨a, ha, hpa⟩ := mem_flatMap.1 hp
    exact ⟨a, ha, p, hpa, hx⟩
  · rintro ⟨a, ha, p, hpa, hx⟩
    exact ⟨p, mem_flatMap.2 ⟨a, ha, hpa⟩, hx⟩

theorem Separated.nil : Separated ([] : List α) := ⟨by simp, List.Pairwise.nil⟩

theorem separated_cons {a : α} {l : List α} :
    Separated (a :: l) ↔ lo a < hi a ∧ (∀ b ∈ l, hi a < lo b) ∧ Separated l := by
  constructor
  · rintro ⟨hne, hapart⟩
    obtain ⟨hfirst, hrest⟩ := pairwise_cons.1 hapart
    exact ⟨hne a mem_cons_self, hfirst, fun b hb => hne b (mem_cons_of_mem a hb), hrest⟩
  · rintro ⟨hne, hfirst, hsep⟩
    refine ⟨?_, pairwise_cons.2 ⟨hfirst, hsep.apart⟩⟩
    intro b hb
    rcases mem_cons.1 hb with rfl | hb
    · exact hne
    · exact hsep.nonempty b hb

/-- Of two members one lies behind a gap after the other. -/
theorem Separated.gap {l : List α} (sep : Separated l) {a b : α} (ha : a ∈ l) (hb : b ∈ l)
    (hne : a ≠ b) : hi a < lo b ∨ hi b < lo a := by
  have symmetric : Std.Symm fun a b : α => hi a < lo b ∨ hi b < lo a := ⟨fun _ _ => Or.symm⟩
  have hpair : l.Pairwise fun a b => hi a < lo b ∨ hi b < lo a := sep.apart.imp Or.inl
  exact hpair.forall ha hb hne

/-- An interval of points lies in one member: between members there is always a gap. -/
theorem Separated.exists_container {l : List α} (sep : Separated l) {first last : Nat}
    (hne : first < last) (h : Set.Ico first last ⊆ points l) :
    ∃ a ∈ l, lo a ≤ first ∧ last ≤ hi a := by
  obtain ⟨a, ha, hlow, hhigh⟩ := h ⟨Nat.le_refl first, hne⟩
  refine ⟨a, ha, hlow, ?_⟩
  by_contra hshort
  obtain ⟨b, hb, hlow', hhigh'⟩ := h (show hi a ∈ Set.Ico first last from ⟨by omega, by omega⟩)
  have hab : a ≠ b := by
    rintro rfl
    omega
  rcases sep.gap ha hb hab with hgap | hgap
  · omega
  · omega

theorem subset_points_of_container {l : List α} {a : α} (ha : a ∈ l) {first last : Nat}
    (hlow : lo a ≤ first) (hhigh : last ≤ hi a) : Set.Ico first last ⊆ points l := by
  rintro x ⟨hx⟩
  exact ⟨a, ha, by omega, by omega⟩

section Cutting

/-- The pieces of an interval that are left when `[first, last)` is cut out of it. -/
structure Cuts (first last : Nat) (a : α) (pieces : List α) : Prop where
  separated : Separated pieces
  within : ∀ p ∈ pieces, lo a ≤ lo p ∧ hi p ≤ hi a
  points_eq : points pieces = Set.Ico (lo a) (hi a) \ Set.Ico first last

variable {l : List α} {pieces : α → List α} {first last : Nat}

theorem Separated.flatMap_cuts (sep : Separated l) (cuts : ∀ a ∈ l, Cuts first last a (pieces a)) :
    Separated (l.flatMap pieces) := by
  induction l with
  | nil => exact .nil
  | cons a l ih =>
    obtain ⟨-, hfirst, hsep⟩ := separated_cons.1 sep
    have hcut := cuts a mem_cons_self
    have hrest := ih hsep fun b hb => cuts b (mem_cons_of_mem a hb)
    constructor
    · intro p hp
      rcases mem_append.1 hp with hp | hp
      · exact hcut.separated.nonempty p hp
      · exact hrest.nonempty p hp
    · refine pairwise_append.2 ⟨hcut.separated.apart, hrest.apart, ?_⟩
      intro p hp q hq
      obtain ⟨b, hb, hqb⟩ := mem_flatMap.1 hq
      have hlow := ((cuts b (mem_cons_of_mem a hb)).within q hqb).1
      have hhigh := (hcut.within p hp).2
      have hgap := hfirst b hb
      omega

theorem points_flatMap_cuts (cuts : ∀ a ∈ l, Cuts first last a (pieces a)) :
    points (l.flatMap pieces) = points l \ Set.Ico first last := by
  ext x
  rw [mem_points_flatMap]
  constructor
  · rintro ⟨a, ha, hx⟩
    rw [(cuts a ha).points_eq] at hx
    exact ⟨⟨a, ha, hx.1⟩, hx.2⟩
  · rintro ⟨⟨a, ha, hx⟩, hout⟩
    refine ⟨a, ha, ?_⟩
    rw [(cuts a ha).points_eq]
    exact ⟨hx, hout⟩

theorem Cut.points_eq {a front back : α} {first last : Nat} (cut : Cut a first last front back) :
    points (carve a first last front back) = Set.Ico (lo a) (hi a) \ Set.Ico first last := by
  ext x
  have hcount := cut.coverage_add x
  have hmem : x ∈ points (carve a first last front back) ↔
      0 < coverage (carve a first last front back) x := coverage_pos.symm
  rw [hmem, Set.mem_sdiff, Set.mem_Ico, Set.mem_Ico]
  by_cases hcovers : Covers a x
  · rw [if_pos hcovers] at hcount
    obtain ⟨hlow⟩ := hcovers
    split at hcount
    · omega
    · omega
  · rw [if_neg hcovers] at hcount
    unfold Covers at hcovers
    omega

/-- An interval apart from the one taken out is its own piece. -/
theorem cuts_of_apart {a : α} {first last : Nat} (ha : lo a < hi a)
    (h : hi a ≤ first ∨ last ≤ lo a) : Cuts first last a [a] := by
  refine ⟨separated_cons.2 ⟨ha, by simp, .nil⟩, ?_, ?_⟩
  · intro p hp
    rw [mem_singleton.1 hp]
    exact ⟨Nat.le_refl _, Nat.le_refl _⟩
  · ext x
    rw [points_cons, points_nil, Set.union_empty, Set.mem_sdiff, Set.mem_Ico, Set.mem_Ico]
    omega

/-- One that meets it leaves a piece on each side that it reaches past. -/
theorem cuts_of_meets {a front back : α} {first last : Nat} (hrange : first < last)
    (ha : lo a < hi a) (hlow : lo a < last) (hhigh : first < hi a)
    (hfront : lo a < first → lo front = lo a ∧ hi front = first)
    (hback : last < hi a → lo back = last ∧ hi back = hi a) :
    Cuts first last a
      ((if lo a < first then [front] else []) ++ (if last < hi a then [back] else [])) := by
  have hcarve : (if lo a < first then [front] else []) ++ (if last < hi a then [back] else []) =
      carve a (max first (lo a)) (min last (hi a)) front back := by
    simp [carve]
  have cut : Cut a (max first (lo a)) (min last (hi a)) front back := by
    refine ⟨by omega, by omega, by omega, ?_, ?_⟩
    · intro h
      obtain ⟨hlo⟩ := hfront (by omega)
      exact ⟨hlo, by omega⟩
    · intro h
      obtain ⟨hlo, hhi⟩ := hback (by omega)
      exact ⟨by omega, hhi⟩
  rw [hcarve]
  refine ⟨cut.separated, cut.within, ?_⟩
  ext x
  rw [cut.points_eq]
  simp only [Set.mem_sdiff, Set.mem_Ico]
  omega

end Cutting

section Absorbing

variable {m : α} {l : List α}

/-- Insert an interval: what it meets or touches is joined to it. -/
def absorb (join : α → α → α) (m : α) : List α → List α
  | [] => [m]
  | a :: l =>
    if hi a < lo m then a :: absorb join m l
    else if hi m < lo a then m :: a :: l
    else absorb join (join m a) l

/-- `join` spans both of its arguments. -/
def Spans (join : α → α → α) : Prop :=
  ∀ a b, lo (join a b) = min (lo a) (lo b) ∧ hi (join a b) = max (hi a) (hi b)

variable {join : α → α → α}

theorem forall_absorb {P : α → Prop} (hjoin : ∀ m b, P m → P b → P (join m b)) (hm : P m)
    (hl : ∀ a ∈ l, P a) : ∀ a ∈ absorb join m l, P a := by
  induction l generalizing m with
  | nil =>
    intro a ha
    rwa [mem_singleton.1 ha]
  | cons b l ih =>
    obtain ⟨hb, hrest⟩ := forall_mem_cons.1 hl
    unfold absorb
    split
    · exact forall_mem_cons.2 ⟨hb, ih hm hrest⟩
    split
    · exact forall_mem_cons.2 ⟨hm, hl⟩
    · exact ih (hjoin m b hm hb) hrest

theorem lo_absorb (spans : Spans join) {x : Nat} (hm : x < lo m) (hl : ∀ a ∈ l, x < lo a) :
    ∀ a ∈ absorb join m l, x < lo a :=
  forall_absorb (fun m b hm hb => by rw [(spans m b).1]; omega) hm hl

theorem absorb_separated (spans : Spans join) {m : α} {l : List α} (hm : lo m < hi m)
    (sep : Separated l) : Separated (absorb join m l) := by
  induction l generalizing m with
  | nil => exact separated_cons.2 ⟨hm, by simp, .nil⟩
  | cons a l ih =>
    obtain ⟨hne, hfirst, hsep⟩ := separated_cons.1 sep
    unfold absorb
    split
    · rename_i hbefore
      exact separated_cons.2 ⟨hne, lo_absorb spans hbefore hfirst, ih hm hsep⟩
    split
    · rename_i hafter
      refine separated_cons.2 ⟨hm, ?_, sep⟩
      intro b hb
      rcases mem_cons.1 hb with rfl | hb
      · exact hafter
      · have := hfirst b hb
        omega
    · apply ih _ hsep
      rw [(spans m a).1, (spans m a).2]
      omega

theorem points_absorb (spans : Spans join) (hm : lo m < hi m) (hne : ∀ a ∈ l, lo a < hi a) :
    points (absorb join m l) = Set.Ico (lo m) (hi m) ∪ points l := by
  induction l generalizing m with
  | nil => rw [absorb, points_cons]
  | cons a l ih =>
    have hrest : ∀ b ∈ l, lo b < hi b := fun b hb => hne b (mem_cons_of_mem a hb)
    unfold absorb
    split
    · rw [points_cons, ih hm hrest, points_cons, Set.union_left_comm]
    split
    · rw [points_cons m]
    · have hjoin : Set.Ico (lo (join m a)) (hi (join m a)) =
          Set.Ico (lo m) (hi m) ∪ Set.Ico (lo a) (hi a) := by
        ext x
        rw [(spans m a).1, (spans m a).2]
        simp only [Set.mem_Ico, Set.mem_union]
        omega
      rw [ih _ hrest, hjoin, points_cons, Set.union_assoc]
      rw [(spans m a).1, (spans m a).2]
      omega

/-- No member reaches past the end that bounds the list and what is inserted. -/
theorem hi_absorb (spans : Spans join) {x : Nat} (hm : hi m ≤ x) (hl : ∀ a ∈ l, hi a ≤ x) :
    ∀ a ∈ absorb join m l, hi a ≤ x :=
  forall_absorb (fun m b hm hb => by rw [(spans m b).2]; omega) hm hl

end Absorbing

end Intervals
