import Mathlib.Data.List.Sort
import Mathlib.Algebra.BigOperators.Group.Finset.Basic
import Mathlib.Algebra.BigOperators.Ring.Finset
import Mathlib.Order.Interval.Finset.Nat

/-!
# Lists of half-open intervals

The bookkeeping of a free list in its own terms: how often a point is covered,
when a list is sorted with gaps, and what the two-index compaction of a sorted
vector does to both. A value occupies `[lo, hi)`; nothing else is known of it,
so one list may hold byte ranges and another page runs.
-/

namespace Intervals

open List

universe u v w

/-- A type whose values occupy a half-open interval of naturals. -/
class Bounds (α : Type u) where
  lo : α → Nat
  hi : α → Nat

export Bounds (lo hi)

section Coverage

variable {α : Type u} {β : Type v} [Bounds α] [Bounds β]
variable {n x b : Nat} {live : List β} {free l : List α} {r front back a : α}

def Covers (a : α) (x : Nat) : Prop := lo a ≤ x ∧ x < hi a

instance (a : α) (x : Nat) : Decidable (Covers a x) :=
  inferInstanceAs (Decidable (lo a ≤ x ∧ x < hi a))

/-- How many members of the list contain the point. -/
def coverage (l : List α) (x : Nat) : Nat := l.countP (fun a => decide (Covers a x))

def total (l : List α) : Nat := (l.map (fun a => hi a - lo a)).sum

/-- Nonempty intervals in increasing order, none touching the next. -/
structure Separated (l : List α) : Prop where
  nonempty : ∀ a ∈ l, lo a < hi a
  apart : l.Pairwise (fun a b => hi a < lo b)

/-- Two lists together contain every point below `n` once, and no other point. -/
def Partition (n : Nat) (free : List α) (live : List β) : Prop :=
  ∀ x, coverage free x + coverage live x = if x < n then 1 else 0

@[simp] theorem coverage_nil (x : Nat) : coverage ([] : List α) x = 0 := rfl

@[simp] theorem total_nil : total ([] : List α) = 0 := rfl

theorem coverage_cons (a : α) (l : List α) (x : Nat) :
    coverage (a :: l) x = (if Covers a x then 1 else 0) + coverage l x := by
  by_cases h : Covers a x
  · simp [coverage, h, Nat.add_comm]
  · simp [coverage, h]

theorem total_cons (a : α) (l : List α) : total (a :: l) = (hi a - lo a) + total l := rfl

theorem coverage_append (l r : List α) (x : Nat) :
    coverage (l ++ r) x = coverage l x + coverage r x := countP_append

theorem coverage_perm {r : List α} (same : l.Perm r) (x : Nat) : coverage l x = coverage r x := same.countP_eq _

theorem total_perm {r : List α} (same : l.Perm r) : total l = total r :=
  (same.map (fun a => hi a - lo a)).sum_eq

theorem coverage_pos : 0 < coverage l x ↔ ∃ a ∈ l, Covers a x := by
  simp [coverage]

theorem coverage_of_mem (ha : a ∈ l) (hx : Covers a x) : 0 < coverage l x := coverage_pos.mpr ⟨a, ha, hx⟩

/-- Counting points and adding lengths agree on lists inside `[0, n)`. -/
theorem sum_coverage (n : Nat) (l : List α) (inside : ∀ a ∈ l, hi a ≤ n) :
    ∑ x ∈ Finset.range n, coverage l x = total l := by
  induction l with
  | nil => simp
  | cons a l ih =>
    have tail := ih (fun b hb => inside b (mem_cons_of_mem a hb))
    have ha := inside a mem_cons_self
    have own : ∑ x ∈ Finset.range n, (if Covers a x then 1 else 0) = hi a - lo a := by
      rw [← Finset.card_filter]
      have points : (Finset.range n).filter (Covers a) = Finset.Ico (lo a) (hi a) := by
        ext x
        simp only [Finset.mem_filter, Finset.mem_range, Finset.mem_Ico, Covers]
        omega
      rw [points, Nat.card_Ico]
    simp [coverage_cons, Finset.sum_add_distrib, own, tail, total_cons]

theorem Partition.le_one (part : Partition n free live) (x : Nat) :
    coverage free x + coverage live x ≤ 1 := by
  rw [part x]
  split <;> omega

theorem Partition.free_lt (part : Partition n free live) (ha : a ∈ free) (hx : Covers a x) :
    x < n := by
  have h := part x
  have hp := coverage_of_mem ha hx
  by_contra hn
  rw [if_neg hn] at h
  omega

theorem Partition.symm (part : Partition n free live) : Partition n live free := by
  intro x
  rw [Nat.add_comm]
  exact part x

theorem Partition.free_hi (part : Partition n free live) (ha : a ∈ free) (ne : lo a < hi a) :
    hi a ≤ n := by
  have h := part.free_lt ha (x := hi a - 1) ⟨by omega, by omega⟩
  omega

/-- A free interval and a live one never share a point. -/
theorem Partition.free_live (part : Partition n free live) {b : β} (ha : a ∈ free) (hb : b ∈ live)
    (hx : Covers a x) : ¬ Covers b x := by
  intro hy
  have h := part.le_one x
  have h1 := coverage_of_mem ha hx
  have h2 := coverage_of_mem hb hy
  omega

/-- Lengths of the two sides of a partition add up to the whole. -/
theorem Partition.total_add (part : Partition n free live) (hf : ∀ a ∈ free, lo a < hi a)
    (hl : ∀ b ∈ live, lo b < hi b) : total free + total live = n := by
  have h1 := sum_coverage n free (fun a ha => part.free_hi ha (hf a ha))
  have h2 := sum_coverage n live (fun b hb => part.symm.free_hi hb (hl b hb))
  rw [← h1, ← h2, ← Finset.sum_add_distrib]
  have ones : ∀ x ∈ Finset.range n, coverage free x + coverage live x = 1 := by
    intro x hx
    rw [part x, if_pos (Finset.mem_range.mp hx)]
  rw [Finset.sum_congr rfl ones]
  simp

/-- Members of a list that covers no point twice are pairwise disjoint. -/
theorem pairwise_disjoint (once : ∀ x, coverage l x ≤ 1) :
    l.Pairwise (fun a b => ∀ x, ¬ (Covers a x ∧ Covers b x)) := by
  induction l with
  | nil => exact List.Pairwise.nil
  | cons a l ih =>
    refine List.Pairwise.cons ?_ (ih (fun x => ?_))
    · rintro b hb x ⟨hxa, hxb⟩
      have h := once x
      rw [coverage_cons, if_pos hxa] at h
      have := coverage_of_mem hb hxb
      omega
    · have h := once x
      rw [coverage_cons] at h
      omega

theorem Partition.live_once (part : Partition n free live) (x : Nat) : coverage live x ≤ 1 := by
  have h := part.le_one x
  omega

/-- A separated list that covers exactly `[0, n)` is one interval. -/
theorem Separated.eq_whole (sep : Separated l) (hn : 0 < n)
    (whole : ∀ x, coverage l x = if x < n then 1 else 0) : ∃ a, l = [a] ∧ lo a = 0 ∧ hi a = n := by
  have below : ∀ a ∈ l, ∀ x, Covers a x → x < n := by
    intro a ha x hx
    have h := whole x
    have := coverage_of_mem ha hx
    by_contra hlt
    rw [if_neg hlt] at h
    omega
  cases l with
  | nil =>
    have h := whole 0
    rw [if_pos hn] at h
    simp at h
  | cons a l =>
    have apart := pairwise_cons.mp sep.apart
    have ne := sep.nonempty a mem_cons_self
    have start : lo a = 0 := by
      have h := whole 0
      rw [if_pos hn] at h
      obtain ⟨b, hb, hx⟩ := coverage_pos.mp (by omega : 0 < coverage (a :: l) 0)
      rcases mem_cons.mp hb with rfl | hb
      · exact Nat.le_zero.mp hx.1
      · have := apart.1 b hb
        have := hx.1
        omega
    have top := below a mem_cons_self (hi a - 1) ⟨by omega, by omega⟩
    have stop : hi a = n := by
      by_contra hne
      have h := whole (hi a)
      rw [if_pos (by omega)] at h
      obtain ⟨b, hb, hx⟩ := coverage_pos.mp (by omega : 0 < coverage (a :: l) (hi a))
      rcases mem_cons.mp hb with rfl | hb
      · exact absurd hx.2 (Nat.lt_irrefl _)
      · have := apart.1 b hb
        have := hx.1
        omega
    have last : l = [] := by
      cases l with
      | nil => rfl
      | cons b l =>
        have hb := apart.1 b mem_cons_self
        have neb := sep.nonempty b (by simp)
        have := below b (by simp) (lo b) ⟨Nat.le_refl _, neb⟩
        omega
    exact ⟨a, by rw [last], start, stop⟩

/-- Replacing one member by separated pieces of it keeps the list separated. -/
theorem Separated.splice {front back parts : List α} (sep : Separated (front ++ r :: back))
    (pieces : Separated parts) (within : ∀ p ∈ parts, lo r ≤ lo p ∧ hi p ≤ hi r) :
    Separated (front ++ (parts ++ back)) := by
  have apart := pairwise_append.mp sep.apart
  have hr := pairwise_cons.mp apart.2.1
  constructor
  · intro a ha
    rcases mem_append.mp ha with ha | ha
    · exact sep.nonempty a (by simp [ha])
    · rcases mem_append.mp ha with ha | ha
      · exact pieces.nonempty a ha
      · exact sep.nonempty a (by simp [ha])
  · refine pairwise_append.mpr ⟨apart.1, pairwise_append.mpr ⟨pieces.apart, hr.2, ?_⟩, ?_⟩
    · intro p hp b hb
      have := (within p hp).2
      have := hr.1 b hb
      omega
    · intro a ha b hb
      have har := apart.2.2 a ha r (by simp)
      rcases mem_append.mp hb with hb | hb
      · have := (within b hb).1
        omega
      · have h1 := hr.1 b hb
        have h2 := sep.nonempty r (by simp)
        omega

/-- What is left of `r` once `[a, b)` is cut out of it: a front and a back piece, where not empty. -/
def carve (r : α) (a b : Nat) (front back : α) : List α :=
  (if lo r < a then [front] else []) ++ (if b < hi r then [back] else [])

/-- The two pieces have the bounds that cutting `[a, b)` out of `r` leaves. -/
structure Cut (r : α) (a b : Nat) (front back : α) : Prop where
  start : lo r ≤ a
  nonempty : a < b
  stop : b ≤ hi r
  front_bounds : lo r < a → lo front = lo r ∧ hi front = a
  back_bounds : b < hi r → lo back = b ∧ hi back = hi r

theorem Cut.mem {a : Nat} (cut : Cut r a b front back) {p : α} (hp : p ∈ carve r a b front back) :
    (lo r < a ∧ lo p = lo r ∧ hi p = a) ∨ (b < hi r ∧ lo p = b ∧ hi p = hi r) := by
  simp only [carve, mem_append] at hp
  rcases hp with hp | hp
  · split at hp
    · rename_i h
      rw [mem_singleton.mp hp]
      exact Or.inl ⟨h, cut.front_bounds h⟩
    · cases hp
  · split at hp
    · rename_i h
      rw [mem_singleton.mp hp]
      exact Or.inr ⟨h, cut.back_bounds h⟩
    · cases hp

theorem Cut.separated {a : Nat} (cut : Cut r a b front back) :
    Separated (carve r a b front back) := by
  constructor
  · intro p hp
    rcases cut.mem hp with h <;> omega
  · have := cut.nonempty
    simp only [carve]
    split
    · split
      · rename_i hf hb
        have h1 := cut.front_bounds hf
        have h2 := cut.back_bounds hb
        simp only [cons_append, nil_append, pairwise_cons, mem_singleton, forall_eq]
        refine ⟨by omega, by simp⟩
      · simp
    · split <;> simp

theorem Cut.within {a : Nat} (cut : Cut r a b front back) :
    ∀ p ∈ carve r a b front back, lo r ≤ lo p ∧ hi p ≤ hi r := by
  intro p hp
  have := cut.start
  have := cut.nonempty
  have := cut.stop
  rcases cut.mem hp with h <;> omega

theorem Cut.coverage_add {a : Nat} (cut : Cut r a b front back) (x : Nat) :
    coverage (carve r a b front back) x + (if a ≤ x ∧ x < b then 1 else 0) =
      if Covers r x then 1 else 0 := by
  have first : coverage (if lo r < a then [front] else []) x =
      if lo r ≤ x ∧ x < a then 1 else 0 := by
    split
    · rename_i h
      have := cut.front_bounds h
      rw [coverage_cons]
      simp [Covers, this.1, this.2]
    · rw [coverage_nil, if_neg (by omega)]
  have second : coverage (if b < hi r then [back] else []) x =
      if b ≤ x ∧ x < hi r then 1 else 0 := by
    split
    · rename_i h
      have := cut.back_bounds h
      rw [coverage_cons]
      simp [Covers, this.1, this.2]
    · rw [coverage_nil, if_neg (by omega)]
  have whole : Covers r x ↔ lo r ≤ x ∧ x < hi r := Iff.rfl
  have := cut.start
  have := cut.nonempty
  have := cut.stop
  rw [carve, coverage_append, first, second, if_congr whole rfl rfl]
  split_ifs <;> omega

/-- Cutting a block out of a free interval and making it live keeps the partition. -/
theorem Partition.take {before after : List α} {e : β}
    (part : Partition n (before ++ r :: after) live) (cut : Cut r (lo e) (hi e) front back) :
    Partition n (before ++ (carve r (lo e) (hi e) front back ++ after)) (e :: live) := by
  intro x
  have h := part x
  have hc := cut.coverage_add x
  have he : Covers e x ↔ lo e ≤ x ∧ x < hi e := Iff.rfl
  rw [coverage_append, coverage_cons] at h
  rw [coverage_append, coverage_append, coverage_cons, if_congr he rfl rfl]
  omega

/-- Moving a live block to the free side keeps the partition. -/
theorem Partition.give {free' : List α} {live' : List β} {e : β} (part : Partition n free live)
    (perm : live.Perm (e :: live'))
    (grown : ∀ x, coverage free' x = coverage free x + (if Covers e x then 1 else 0)) :
    Partition n free' live' := by
  intro x
  have h := part x
  rw [coverage_perm perm x, coverage_cons] at h
  rw [grown x]
  omega

/-- Sorted nonempty intervals that cover no point twice follow one another. -/
theorem ordered_of_once (sorted : l.Pairwise (fun a b => lo a ≤ lo b))
    (nonempty : ∀ a ∈ l, lo a < hi a) (once : ∀ x, coverage l x ≤ 1) :
    l.Pairwise (fun a b => hi a ≤ lo b) := by
  have disjoint := pairwise_disjoint once
  refine (sorted.and disjoint).imp_of_mem ?_
  rintro a b _ hb ⟨hle, hdis⟩
  by_contra hlt
  have neb := nonempty b hb
  exact hdis (lo b) ⟨⟨hle, by omega⟩, ⟨Nat.le_refl _, neb⟩⟩

end Coverage

section Cells

variable {α : Type u}

theorem getElem?_cell (front back : List α) (a : α) :
    (front ++ a :: back)[front.length]? = some a := by simp

theorem set_cell (front back : List α) (a b : α) :
    (front ++ a :: back).set front.length b = front ++ b :: back := by simp

theorem eraseIdx_cell (front back : List α) (a : α) :
    (front ++ a :: back).eraseIdx front.length = front ++ back := by
  simp [eraseIdx_append_of_length_le]

theorem insertIdx_cell (front back : List α) (a b : α) :
    (front ++ a :: back).insertIdx (front.length + 1) b = front ++ a :: b :: back := by
  induction front with
  | nil => rfl
  | cons c front ih => simpa using ih

end Cells

section FirstFit

variable {α : Type u} {γ : Type v}
variable {fit : α → Option γ} {l : List α} {i : Nat}

/-- Index and placement of the first member, counting from `i`, in which the request fits. -/
def firstFit (fit : α → Option γ) : Nat → List α → Option (Nat × γ)
  | _, [] => none
  | i, a :: l =>
    match fit a with
    | some place => some (i, place)
    | none => firstFit fit (i + 1) l

/-- `fit` answers the least placement that `Allowed` knows in `a`, if it knows any. -/
structure FindsLeast (Allowed : α → γ → Prop) [LE γ] (fit : α → Option γ) (a : α) : Prop where
  sound : ∀ place, fit a = some place → Allowed a place ∧ ∀ other, Allowed a other → place ≤ other
  complete : fit a = none → ∀ place, ¬ Allowed a place

theorem firstFit_none (h : firstFit fit i l = none) : ∀ a ∈ l, fit a = none := by
  induction l generalizing i with
  | nil => exact fun a ha => absurd ha not_mem_nil
  | cons a l ih =>
    cases hf : fit a with
    | some place => simp only [firstFit, hf, reduceCtorEq] at h
    | none =>
      simp only [firstFit, hf] at h
      intro b hb
      rcases mem_cons.1 hb with rfl | hb
      · exact hf
      · exact ih h b hb

/-- Every member in front of the one found had no room. -/
theorem firstFit_first {j : Nat} {place : γ} (h : firstFit fit i l = some (j, place)) :
    ∃ front a back, l = front ++ a :: back ∧ j = i + front.length ∧ fit a = some place ∧
      ∀ b ∈ front, fit b = none := by
  induction l generalizing i with
  | nil => cases h
  | cons a l ih =>
    cases hf : fit a with
    | some p =>
      simp only [firstFit, hf, Option.some.injEq, Prod.mk.injEq] at h
      exact ⟨[], a, l, rfl, h.1.symm, h.2 ▸ hf, by simp⟩
    | none =>
      simp only [firstFit, hf] at h
      obtain ⟨front, b, back, rfl, rfl, hb, hfront⟩ := ih h
      refine ⟨a :: front, b, back, rfl, by simp; omega, hb, ?_⟩
      intro c hc
      rcases mem_cons.1 hc with rfl | hc
      · exact hf
      · exact hfront c hc

/-- What a first-fit search over least placements tells about the list. -/
structure FirstLeast (Allowed : α → γ → Prop) [LE γ] (l : List α) (place : γ) : Prop where
  found : ∃ front a back, l = front ++ a :: back ∧ (∀ b ∈ front, ∀ other, ¬ Allowed b other) ∧
    Allowed a place ∧ ∀ other, Allowed a other → place ≤ other

section Least

variable {Allowed : α → γ → Prop} [LE γ] {fit : α → Option γ} {l : List α} {i : Nat}

theorem firstFit_none_allowed (least : ∀ a ∈ l, FindsLeast Allowed fit a)
    (h : firstFit fit i l = none) : ∀ a ∈ l, ∀ place, ¬ Allowed a place :=
  fun a ha => (least a ha).complete (firstFit_none h a ha)

theorem firstFit_some {j : Nat} {place : γ} (h : firstFit fit i l = some (j, place)) :
    ∃ front a back, l = front ++ a :: back ∧ j = i + front.length ∧ fit a = some place := by
  obtain ⟨front, a, back, hl, hj, ha, -⟩ := firstFit_first h
  exact ⟨front, a, back, hl, hj, ha⟩

theorem firstFit_firstLeast {j : Nat} {place : γ} (least : ∀ a ∈ l, FindsLeast Allowed fit a)
    (h : firstFit fit i l = some (j, place)) : FirstLeast Allowed l place := by
  obtain ⟨front, a, back, rfl, -, ha, hfront⟩ := firstFit_first h
  obtain ⟨hallowed, hleast⟩ := (least a (by simp)).sound place ha
  refine ⟨front, a, back, rfl, ?_, hallowed, hleast⟩
  intro b hb
  exact (least b (by simp [hb])).complete (hfront b hb)

end Least

end FirstFit

section Compaction

variable {α : Type u} {σ : Type w}

/-- The vector being compacted, the write index, and what joining two cells threads along. -/
structure Scan (α : Type u) (σ : Type w) where
  cells : List α
  writeIndex : Nat
  aux : σ

/-- One turn of the loop: join the cell read into the cell last written, or keep it next to it. -/
def Scan.step (join : σ → α → α → Option (α × σ)) (s : Scan α σ) (readIndex : Nat) : Scan α σ :=
  match s.cells[s.writeIndex]?, s.cells[readIndex]? with
  | some current, some next =>
    match join s.aux current next with
    | some (merged, aux) => ⟨s.cells.set s.writeIndex merged, s.writeIndex, aux⟩
    | none =>
      if s.writeIndex + 1 ≠ readIndex then
        ⟨s.cells.set (s.writeIndex + 1) next, s.writeIndex + 1, s.aux⟩
      else ⟨s.cells, s.writeIndex + 1, s.aux⟩
  | _, _ => s

/-- The whole loop over read indices `1, 2, ..`, followed by the truncation. -/
def compact (join : σ → α → α → Option (α × σ)) (aux : σ) (cells : List α) : List α × σ :=
  let s := (List.range' 1 (cells.length - 1)).foldl (Scan.step join) ⟨cells, 0, aux⟩
  (s.cells.take (s.writeIndex + 1), s.aux)

/-- The same compaction by recursion on the unread cells. -/
def fuse (join : σ → α → α → Option (α × σ)) : σ → α → List α → List α × σ
  | aux, current, [] => ([current], aux)
  | aux, current, next :: rest =>
    match join aux current next with
    | some (merged, aux) => fuse join aux merged rest
    | none => (current :: (fuse join aux next rest).1, (fuse join aux next rest).2)

theorem scan_fuse (join : σ → α → α → Option (α × σ)) (rest : List α) :
    ∀ (done junk : List α) (current : α) (aux : σ),
      let s := (List.range' (done.length + 1 + junk.length) rest.length).foldl (Scan.step join)
        ⟨done ++ current :: (junk ++ rest), done.length, aux⟩
      s.cells.take (s.writeIndex + 1) = done ++ (fuse join aux current rest).1 ∧
        s.aux = (fuse join aux current rest).2 := by
  induction rest with
  | nil =>
    intro done junk current aux
    simp [fuse, take_append]
  | cons next rest ih =>
    intro done junk current aux
    have readCell : (done ++ current :: (junk ++ next :: rest))[done.length + 1 + junk.length]? =
        some next := by
      rw [List.getElem?_append_right (by omega)]
      simp [show done.length + 1 + junk.length - done.length = junk.length + 1 by omega]
    have writeCell : (done ++ current :: (junk ++ next :: rest))[done.length]? = some current := by
      simp
    simp only [length_cons, List.range'_succ, foldl_cons, Scan.step, readCell, writeCell]
    cases hj : join aux current next with
    | some pair =>
      obtain ⟨merged, aux'⟩ := pair
      have h := ih done (junk ++ [next]) merged aux'
      simpa [fuse, hj, Nat.add_assoc] using h
    | none =>
      cases junk with
      | nil =>
        have h := ih (done ++ [current]) [] next aux
        simpa [fuse, hj] using h
      | cons j junk =>
        have h := ih (done ++ [current]) (junk ++ [next]) next aux
        have hne : done.length + 1 ≠ done.length + 1 + (j :: junk).length := by simp
        have hset : (done ++ current :: (j :: junk ++ next :: rest)).set (done.length + 1) next =
            (done ++ [current]) ++ next :: ((junk ++ [next]) ++ rest) := by
          simp
        have hlen : done.length + 1 + (j :: junk).length + 1 =
            (done ++ [current]).length + 1 + (junk ++ [next]).length := by simp; omega
        have hw : done.length + 1 = (done ++ [current]).length := by simp
        rw [hlen]
        simpa [fuse, hj] using h

/-- The in-place loop computes the recursive compaction. -/
theorem compact_cons (join : σ → α → α → Option (α × σ)) (aux : σ) (a : α) (l : List α) :
    compact join aux (a :: l) = fuse join aux a l := by
  have h := scan_fuse join l [] [] a aux
  exact Prod.ext h.1 h.2

variable [Bounds α]

/-- What the joining step of a free list does to good cells: touching intervals become one,
intervals with a gap stay apart. -/
structure Joins (Good : α → Prop) (join : σ → α → α → Option (α × σ)) : Prop where
  touching : ∀ aux a b, Good a → Good b → lo a < hi a → lo b < hi b → hi a = lo b →
    ∃ m aux', join aux a b = some (m, aux') ∧ Good m ∧ lo m = lo a ∧ hi m = hi b
  gap : ∀ aux a b, Good a → Good b → lo a < hi a → lo b < hi b → hi a < lo b →
    join aux a b = none

theorem covers_touching {a b m : α} (na : lo a < hi a) (nb : lo b < hi b) (touch : hi a = lo b)
    (hlo : lo m = lo a) (hhi : hi m = hi b) (x : Nat) :
    (if Covers m x then 1 else 0) =
      (if Covers a x then 1 else 0) + (if Covers b x then 1 else 0) := by
  by_cases ha : Covers a x
  · have hm : Covers m x := ⟨by have := ha.1; omega, by have := ha.2; omega⟩
    have hb : ¬ Covers b x := fun hb => by have := ha.2; have := hb.1; omega
    rw [if_pos hm, if_pos ha, if_neg hb]
  · by_cases hb : Covers b x
    · have hm : Covers m x := ⟨by have := hb.1; omega, by have := hb.2; omega⟩
      rw [if_pos hm, if_neg ha, if_pos hb]
    · have hm : ¬ Covers m x := by
        simp only [Covers] at *
        omega
      rw [if_neg hm, if_neg ha, if_neg hb]

/-- Outcome of compacting a sorted list of disjoint good intervals. -/
structure Fused (Good : α → Prop) (a : α) (l result : List α) : Prop where
  good : ∀ b ∈ result, Good b
  separated : Separated result
  coverage_eq : ∀ x, coverage result x = coverage (a :: l) x
  lo_le : ∀ b ∈ result, lo a ≤ lo b

theorem fuse_spec {Good : α → Prop} {join : σ → α → α → Option (α × σ)}
    (joins : Joins Good join) (l : List α) :
    ∀ (aux : σ) (a : α), (∀ b ∈ a :: l, Good b) → (∀ b ∈ a :: l, lo b < hi b) →
      (a :: l).Pairwise (fun b c => hi b ≤ lo c) → Fused Good a l (fuse join aux a l).1 := by
  induction l with
  | nil =>
    intro aux a good ne _
    refine ⟨by simpa [fuse] using good, ⟨by simpa [fuse] using ne, by simp [fuse]⟩, ?_, ?_⟩
    · intro x
      rfl
    · simp [fuse]
  | cons b l ih =>
    intro aux a good ne ordered
    have ga := good a mem_cons_self
    have gb := good b (by simp)
    have na := ne a mem_cons_self
    have nb := ne b (by simp)
    have tailGood : ∀ c ∈ b :: l, Good c := fun c hc => good c (mem_cons_of_mem a hc)
    have tailNe : ∀ c ∈ b :: l, lo c < hi c := fun c hc => ne c (mem_cons_of_mem a hc)
    have split := pairwise_cons.mp ordered
    have hab := split.1 b mem_cons_self
    by_cases touch : hi a = lo b
    · obtain ⟨m, aux', hj, gm, hlo, hhi⟩ := joins.touching aux a b ga gb na nb touch
      have rest := pairwise_cons.mp split.2
      have spec := ih aux' m
        (fun c hc => by
          rcases mem_cons.mp hc with rfl | hc
          · exact gm
          · exact tailGood c (mem_cons_of_mem b hc))
        (fun c hc => by
          rcases mem_cons.mp hc with rfl | hc
          · omega
          · exact tailNe c (mem_cons_of_mem b hc))
        (pairwise_cons.mpr ⟨fun c hc => by have := rest.1 c hc; omega, rest.2⟩)
      have joined : (fuse join aux a (b :: l)).1 = (fuse join aux' m l).1 := by simp [fuse, hj]
      rw [joined]
      refine ⟨spec.good, spec.separated, ?_, fun c hc => by have := spec.lo_le c hc; omega⟩
      intro x
      rw [spec.coverage_eq x]
      rw [coverage_cons m, covers_touching na nb touch hlo hhi x, coverage_cons a, coverage_cons b]
      omega
    · have hj := joins.gap aux a b ga gb na nb (by omega)
      have spec := ih aux b tailGood tailNe split.2
      have kept : (fuse join aux a (b :: l)).1 = a :: (fuse join aux b l).1 := by simp [fuse, hj]
      rw [kept]
      refine ⟨?_, ⟨?_, ?_⟩, ?_, ?_⟩
      · intro c hc
        rcases mem_cons.mp hc with rfl | hc
        · exact ga
        · exact spec.good c hc
      · intro c hc
        rcases mem_cons.mp hc with rfl | hc
        · exact na
        · exact spec.separated.nonempty c hc
      · refine pairwise_cons.mpr ⟨fun c hc => ?_, spec.separated.apart⟩
        have := spec.lo_le c hc
        omega
      · intro x
        rw [coverage_cons, spec.coverage_eq x, coverage_cons a]
      · intro c hc
        rcases mem_cons.mp hc with rfl | hc
        · exact Nat.le_refl _
        · have := spec.lo_le c hc
          omega

/-- Sorting and compacting a list that covers no point twice gives a separated list
with the same points. -/
theorem compact_sorted_spec {Good : α → Prop} {join : σ → α → α → Option (α × σ)}
    (joins : Joins Good join) (aux : σ) (l : List α) (good : ∀ a ∈ l, Good a)
    (nonempty : ∀ a ∈ l, lo a < hi a) (once : ∀ x, coverage l x ≤ 1) :
    let result := (compact join aux (l.insertionSort (fun a b => lo a ≤ lo b))).1
    (∀ a ∈ result, Good a) ∧ Separated result ∧ ∀ x, coverage result x = coverage l x := by
  intro result
  have perm := perm_insertionSort (fun a b : α => lo a ≤ lo b) l
  have sorted := pairwise_insertionSort (fun a b : α => lo a ≤ lo b) l
  have same : ∀ x, coverage (l.insertionSort (fun a b => lo a ≤ lo b)) x = coverage l x :=
    fun x => coverage_perm perm x
  have goodS : ∀ a ∈ l.insertionSort (fun a b => lo a ≤ lo b), Good a :=
    fun a ha => good a (perm.mem_iff.mp ha)
  have neS : ∀ a ∈ l.insertionSort (fun a b => lo a ≤ lo b), lo a < hi a :=
    fun a ha => nonempty a (perm.mem_iff.mp ha)
  have ordered := ordered_of_once sorted neS (fun x => by rw [same x]; exact once x)
  cases hs : l.insertionSort (fun a b => lo a ≤ lo b) with
  | nil =>
    have hr : result = [] := by simp only [result, hs]; rfl
    rw [hr]
    refine ⟨by simp, ⟨by simp, List.Pairwise.nil⟩, fun x => ?_⟩
    rw [← same x, hs]
  | cons a t =>
    rw [hs] at goodS neS ordered same
    have hr : result = (fuse join aux a t).1 := by simp [result, hs, compact_cons]
    have spec := fuse_spec joins t aux a goodS neS ordered
    rw [hr]
    exact ⟨spec.good, spec.separated, fun x => (spec.coverage_eq x).trans (same x)⟩

end Compaction

end Intervals
