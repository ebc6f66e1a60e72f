import Mathlib.Data.List.Nodup
import OddBuilder.Library.FileTree

/-!
# Placing objects in a tree

Objects are put at locations one after another, every one with the directories
above it. When no object but a directory is to have another one below it, and no
two are for one location, the order does not matter: what stands in the end is
every object at its location, directories above them, and what was there before.
-/

namespace FileTree

open List

variable {N C T : Type}
variable {items : List (List N × Obj C T)}

/-- Only directories have something below them, and no two items share a location. -/
structure Compatible (items : List (List N × Obj C T)) : Prop where
  below : ∀ x ∈ items, ∀ y ∈ items, x.1 <+: y.1 → x.1 ≠ y.1 → x.2 = .dir
  nodup : (items.map Prod.fst).Nodup

theorem Compatible.of_append {front back : List (List N × Obj C T)}
    (h : Compatible (front ++ back)) : Compatible front := by
  refine ⟨?_, ?_⟩
  · intro x hx y hy
    exact h.below x (mem_append_left _ hx) y (mem_append_left _ hy)
  · have hnodup := h.nodup
    rw [map_append] at hnodup
    exact hnodup.of_append_left

variable [DecidableEq N]

/-- What stands where after an object is put at a location. -/
def place (obj : List N → Option (Obj C T)) (loc : List N) (o : Obj C T) :
    List N → Option (Obj C T) :=
  fun l => if l = loc then some o else if l <+: loc then some .dir else obj l

def placeAll (obj : List N → Option (Obj C T)) (items : List (List N × Obj C T)) :
    List N → Option (Obj C T) :=
  items.foldl (fun obj item => place obj item.1 item.2) obj

theorem placeAll_concat (obj : List N → Option (Obj C T)) (items : List (List N × Obj C T))
    (item : List N × Obj C T) :
    placeAll obj (items ++ [item]) = place (placeAll obj items) item.1 item.2 := by
  rw [placeAll, foldl_append]
  rfl

variable {obj : List N → Option (Obj C T)}

theorem placeAll_other {l : List N} (h : ∀ item ∈ items, ¬ l <+: item.1) :
    placeAll obj items l = obj l := by
  induction items using List.reverseRecOn with
  | nil => rfl
  | append_singleton items item ih =>
    have hitem := h item (by simp)
    have hne : l ≠ item.1 := by
      rintro rfl
      exact hitem (prefix_refl _)
    rw [placeAll_concat, place, if_neg hne, if_neg hitem]
    exact ih fun x hx => h x (mem_append_left _ hx)

/-- Every object ends at its location, with directories above it. -/
theorem placeAll_item (obj : List N → Option (Obj C T)) (h : Compatible items)
    {item : List N × Obj C T} (hitem : item ∈ items) :
    placeAll obj items item.1 = some item.2 ∧
      ∀ l, l <+: item.1 → l ≠ item.1 → placeAll obj items l = some .dir := by
  induction items using List.reverseRecOn with
  | nil => simp at hitem
  | append_singleton items last ih =>
    have hlast : last ∈ items ++ [last] := by simp
    rw [placeAll_concat]
    rcases mem_append.mp hitem with hmem | hmem
    · obtain ⟨hobj, habove⟩ := ih h.of_append hmem
      have hdistinct : item.1 ≠ last.1 := by
        have hnodup := h.nodup
        rw [map_append, nodup_append] at hnodup
        exact hnodup.2.2 _ (mem_map_of_mem hmem) _ (by simp)
      constructor
      · rw [place, if_neg hdistinct]
        split
        · rename_i hprefix
          rw [h.below item hitem last hlast hprefix hdistinct]
        · exact hobj
      · intro l hl hne
        rw [place]
        split
        · rename_i heq
          subst heq
          rw [h.below last hlast item hitem hl hne]
        · split
          · rfl
          · exact habove l hl hne
    · obtain rfl : item = last := by simpa using hmem
      constructor
      · rw [place, if_pos rfl]
      · intro l hl hne
        rw [place, if_neg hne, if_pos hl]

/-- Before the last of compatible items is put, nothing but directories is in its way. -/
theorem placeAll_ready {last : List N × Obj C T} (h : Compatible (items ++ [last]))
    (hfree : obj last.1 = none) (habove : ∀ l, l <+: last.1 → obj l = none ∨ obj l = some .dir) :
    (∀ l, l <+: last.1 → placeAll obj items l = none ∨ placeAll obj items l = some .dir) ∧
      (last.2 = .dir ∨ placeAll obj items last.1 = none) := by
  have hlast : last ∈ items ++ [last] := by simp
  -- an item at a prefix of the last one's location is a directory above it
  have hitem : ∀ item ∈ items, item.1 <+: last.1 → item.2 = .dir ∧ item.1 ≠ last.1 := by
    intro item hmem hle
    have hne : item.1 ≠ last.1 := by
      have hnodup := h.nodup
      rw [map_append, nodup_append] at hnodup
      exact hnodup.2.2 _ (mem_map_of_mem hmem) _ (by simp)
    exact ⟨h.below item (mem_append_left _ hmem) last hlast hle hne, hne⟩
  have hput : ∀ l, l <+: last.1 → (∃ item ∈ items, l <+: item.1) →
      placeAll obj items l = some .dir := by
    rintro l hle ⟨item, hmem, hprefix⟩
    obtain ⟨hobj, hdirs⟩ := placeAll_item obj h.of_append hmem
    by_cases hsame : l = item.1
    · subst hsame
      rw [hobj, (hitem item hmem hle).1]
    · exact hdirs l hprefix hsame
  constructor
  · intro l hle
    by_cases hsome : ∃ item ∈ items, l <+: item.1
    · exact Or.inr (hput l hle hsome)
    · rw [placeAll_other fun item hmem hprefix => hsome ⟨item, hmem, hprefix⟩]
      exact habove l hle
  · by_cases hsome : ∃ item ∈ items, last.1 <+: item.1
    · obtain ⟨item, hmem, hprefix⟩ := hsome
      refine Or.inl (h.below last hlast item (mem_append_left _ hmem) hprefix ?_)
      intro hsame
      exact (hitem item hmem (by rw [hsame])).2 hsame.symm
    · rw [placeAll_other fun item hmem hprefix => hsome ⟨item, hmem, hprefix⟩]
      exact Or.inr hfree

/-- What stands below a fresh location in the end. -/
theorem placeAll_iff (h : Compatible items) {l : List N} (hfree : obj l = none) (o : Obj C T) :
    placeAll obj items l = some o ↔
      (l, o) ∈ items ∨ (o = .dir ∧ ∃ item ∈ items, l <+: item.1 ∧ l ≠ item.1) := by
  constructor
  · intro hplaced
    by_cases hsome : ∃ item ∈ items, l <+: item.1
    · obtain ⟨item, hitem, hprefix⟩ := hsome
      obtain ⟨hobj, habove⟩ := placeAll_item obj h hitem
      by_cases hsame : l = item.1
      · subst hsame
        obtain rfl : item.2 = o := Option.some.inj (hobj.symm.trans hplaced)
        exact Or.inl hitem
      · have hdir := habove l hprefix hsame
        exact Or.inr ⟨Option.some.inj (hplaced.symm.trans hdir), item, hitem, hprefix, hsame⟩
    · rw [placeAll_other (fun item hitem hprefix => hsome ⟨item, hitem, hprefix⟩), hfree] at hplaced
      cases hplaced
  · rintro (hmem | ⟨rfl, item, hitem, hprefix, hne⟩)
    · exact (placeAll_item obj h hmem).1
    · exact (placeAll_item obj h hitem).2 l hprefix hne

end FileTree
