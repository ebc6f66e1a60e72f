import Mathlib.Data.List.Basic
import Mathlib.Data.List.Forall2
import Mathlib.Data.List.Induction
import Mathlib.Data.List.Pairwise

/-!
# Collections

Containers, maps kept sorted and maps by key.

## Containers with insertion

A container keeps one of several items that it takes for the same, and chooses
the order of iteration itself. Inserting items that it tells apart, one after
the other, keeps them all; so does inserting items that stand for them.
-/

namespace Insertion

theorem exists_left_of_forall₂ {α β : Type} {R : α → β → Prop} {as : List α} {bs : List β}
    (h : List.Forall₂ R as bs) : ∀ b ∈ bs, ∃ a ∈ as, R a b := by
  induction h with
  | nil => simp
  | cons hab _ ih =>
    refine List.forall_mem_cons.mpr ⟨⟨_, by simp, hab⟩, ?_⟩
    intro b hb
    obtain ⟨a, ha, hab⟩ := ih b hb
    exact ⟨a, by simp [ha], hab⟩

structure Container (α : Type) where
  equivalent : α → α → Bool
  arrange : List α → List α
  arrange_perm : ∀ as, (arrange as).Perm as

variable {α : Type}

/-- The item is dropped where an equivalent one is there. -/
def Container.insert (c : Container α) (as : List α) (a : α) : List α :=
  if as.any fun b => c.equivalent a b then as else c.arrange (as ++ [a])

/-- No two items are equivalent. -/
def Container.Distinct (c : Container α) (as : List α) : Prop :=
  as.Pairwise fun a b => c.equivalent b a = false

/-- Items that stand for distinct ones are all inserted. -/
theorem Container.foldl_insert_perm (c : Container α) {R : α → α → Prop}
    (hR : ∀ {a a' b b'}, R a a' → R b b' → c.equivalent a b = c.equivalent a' b') {as as' : List α}
    (h : List.Forall₂ R as as') :
    ∀ {before done acc}, List.Forall₂ R before done → done.Perm acc → c.Distinct (before ++ as) →
      (done ++ as').Perm (as'.foldl c.insert acc) := by
  induction h with
  | nil =>
    intro before done acc _ hperm _
    simpa using hperm
  | @cons a a' as as' ha _ ih =>
    intro before done acc hdone hperm hdistinct
    have hnew : ∀ b ∈ acc, c.equivalent a' b = false := by
      intro b hb
      obtain ⟨x, hx, hxb⟩ := exists_left_of_forall₂ hdone b (hperm.mem_iff.mpr hb)
      rw [← hR ha hxb]
      exact (List.pairwise_append.mp hdistinct).2.2 x hx a (by simp)
    have hinsert : c.insert acc a' = c.arrange (acc ++ [a']) := by
      have hany : (acc.any fun b => c.equivalent a' b) = false := by simpa using hnew
      simp [insert, hany]
    have hperm' : (done ++ [a']).Perm (c.insert acc a') := by
      rw [hinsert]
      exact (hperm.append_right [a']).trans (c.arrange_perm _).symm
    have hdone' : List.Forall₂ R (before ++ [a]) (done ++ [a']) :=
      List.rel_append hdone (.cons ha .nil)
    simpa using ih hdone' hperm' (by simpa using hdistinct)

end Insertion

/-!
## Sorted maps

Entries in the order of their keys, no key twice. Inserting the entries of a map one
after the other into the empty map gives the map.
-/

universe u v w

/-- A strict total order as a comparison of keys. -/
structure Comparison (κ : Type u) where
  less : κ → κ → Bool
  irrefl : ∀ a, less a a = false
  trans : ∀ {a b c}, less a b = true → less b c = true → less a c = true
  total : ∀ {a b}, less a b = false → less b a = false → a = b

namespace Comparison

variable {κ : Type u} {β : Type v}

/-- Pairs by their first parts, and by their second parts where these are equal. -/
def pairs [DecidableEq κ] (c : Comparison κ) (d : Comparison β) : Comparison (κ × β) where
  less a b := if a.1 ≠ b.1 then c.less a.1 b.1 else d.less a.2 b.2
  irrefl a := by simp [d.irrefl]
  trans := by grind [c.trans, d.trans, c.irrefl]
  total := by grind [Prod.ext_iff, c.total, d.total]

/-- The items sorted by a key. -/
def sortBy {α : Type w} (c : Comparison κ) (key : α → κ) (items : List α) : List α :=
  items.mergeSort fun a b => !c.less (key b) (key a)

/-- Sorting forgets the order and nothing else where the key tells the items apart. -/
theorem sortBy_eq_iff {α : Type w} {c : Comparison κ} {key : α → κ} {items others : List α}
    (hkey : ∀ a ∈ items, ∀ b ∈ items, key a = key b → a = b) :
    c.sortBy key items = c.sortBy key others ↔ items.Perm others := by
  have hperm : ∀ l : List α, (c.sortBy key l).Perm l := fun l => List.mergeSort_perm _ _
  have hsorted : ∀ l : List α, (c.sortBy key l).Pairwise fun a b => !c.less (key b) (key a) := by
    intro l
    refine List.pairwise_mergeSort ?_ ?_ l
    · grind [c.trans, c.total]
    · grind [c.trans, c.irrefl]
  constructor
  · intro h
    exact (hperm items).symm.trans (h ▸ hperm others)
  · intro h
    refine List.Perm.eq_of_pairwise ?_ (hsorted items) (hsorted others)
      ((hperm items).trans (h.trans (hperm others).symm))
    intro a b ha hb hab hba
    rw [Bool.not_eq_true'] at hab hba
    exact hkey a ((hperm items).mem_iff.mp ha) b (h.mem_iff.mpr ((hperm others).mem_iff.mp hb))
      (c.total hba hab)

end Comparison

namespace SortedMap

variable {κ : Type u} {β : Type v} (c : Comparison κ)
variable {entries : List (κ × β)}

def Sorted (entries : List (κ × β)) : Prop :=
  entries.Pairwise fun a b => c.less a.1 b.1 = true

/-- An entry goes to its place; the value of a key that is there is replaced. -/
def insertEntry (key : κ) (value : β) : List (κ × β) → List (κ × β)
  | [] => [(key, value)]
  | entry :: entries =>
    if c.less key entry.1 then (key, value) :: entry :: entries
    else if c.less entry.1 key then entry :: insertEntry key value entries
    else (key, value) :: entries

variable {c}

theorem mem_insertEntry {key : κ} {value : β} {entry : κ × β}
    (h : entry ∈ insertEntry c key value entries) : entry = (key, value) ∨ entry ∈ entries := by
  induction entries with
  | nil => exact Or.inl (List.mem_singleton.mp h)
  | cons first entries ih =>
    unfold insertEntry at h
    split at h
    · exact List.mem_cons.mp h
    · split at h
      · obtain rfl | hlater := List.mem_cons.mp h
        · exact Or.inr List.mem_cons_self
        · exact (ih hlater).imp_right (List.mem_cons_of_mem first)
      · exact (List.mem_cons.mp h).imp_right (List.mem_cons_of_mem first)

theorem Sorted.insertEntry (h : Sorted c entries) (key : κ) (value : β) :
    Sorted c (insertEntry c key value entries) := by
  induction entries with
  | nil => exact List.pairwise_singleton _ _
  | cons first entries ih =>
    obtain ⟨hfirst, hrest⟩ := List.pairwise_cons.mp h
    unfold SortedMap.insertEntry
    split
    · rename_i hbefore
      refine List.pairwise_cons.mpr ⟨?_, h⟩
      refine List.forall_mem_cons.mpr ⟨hbefore, ?_⟩
      exact fun entry hmem => c.trans hbefore (hfirst entry hmem)
    · split
      · rename_i hafter
        apply List.pairwise_cons.mpr
        constructor
        · intro entry hmem
          obtain rfl | hmem := mem_insertEntry hmem
          · exact hafter
          · exact hfirst entry hmem
        · exact ih hrest
      · rename_i hbefore hafter
        obtain rfl := c.total (Bool.eq_false_iff.mpr hbefore) (Bool.eq_false_iff.mpr hafter)
        exact List.pairwise_cons.mpr ⟨hfirst, hrest⟩

/-- A key behind all keys goes to the end. -/
theorem insertEntry_last {key : κ} (value : β) (h : ∀ entry ∈ entries, c.less entry.1 key = true) :
    insertEntry c key value entries = entries ++ [(key, value)] := by
  induction entries with
  | nil => rfl
  | cons first entries ih =>
    obtain ⟨hfirst, hrest⟩ := List.forall_mem_cons.mp h
    have hbefore : ¬ c.less key first.1 = true := by
      intro hkey
      have hself := c.trans hkey hfirst
      rw [c.irrefl] at hself
      cases hself
    rw [insertEntry, if_neg hbefore, if_pos hfirst, ih hrest, List.cons_append]

end SortedMap

structure SortedMap {κ : Type u} (c : Comparison κ) (β : Type v) where
  entries : List (κ × β)
  sorted : SortedMap.Sorted c entries

namespace SortedMap

variable {κ : Type u} {β : Type v} {c : Comparison κ}

theorem ext {m n : SortedMap c β} (h : m.entries = n.entries) : m = n := by
  cases m
  cases n
  cases h
  rfl

def empty : SortedMap c β := ⟨[], List.Pairwise.nil⟩

def insert (m : SortedMap c β) (key : κ) (value : β) : SortedMap c β :=
  ⟨insertEntry c key value m.entries, m.sorted.insertEntry key value⟩

theorem foldl_insert {m : SortedMap c β} {later : List (κ × β)} (h : Sorted c (m.entries ++ later)) :
    (later.foldl (fun m entry => m.insert entry.1 entry.2) m).entries = m.entries ++ later := by
  induction later generalizing m with
  | nil => exact (List.append_nil _).symm
  | cons entry later ih =>
    have hlast : (m.insert entry.1 entry.2).entries = m.entries ++ [entry] := by
      apply insertEntry_last
      intro before hmem
      exact (List.pairwise_append.mp h).2.2 before hmem entry List.mem_cons_self
    rw [List.foldl_cons, ih, hlast, List.append_assoc, List.singleton_append]
    rwa [hlast, List.append_assoc]

/-- The entries of a map, inserted in their order, make up the map. -/
theorem foldl_insert_empty (m : SortedMap c β) :
    m.entries.foldl (fun m entry => m.insert entry.1 entry.2) empty = m :=
  ext (foldl_insert (m := empty) m.sorted)

end SortedMap

/-!
## Maps by key

Entries in the order in which their keys came, no key twice. After a run of insertions
the value of a key is the last one that was inserted for it.
-/

/-- A map with the entries in some order. -/
abbrev KeyedMap (κ : Type u) (β : Type v) : Type (max u v) := List (κ × β)

namespace KeyedMap

variable {κ : Type u} {β : Type v} [DecidableEq κ]

def find (map : KeyedMap κ β) (key : κ) : Option β :=
  match map with
  | [] => none
  | entry :: entries => if entry.1 = key then some entry.2 else find entries key

/-- The value of a key that is there is replaced. -/
def insert (map : KeyedMap κ β) (key : κ) (value : β) : KeyedMap κ β :=
  match map with
  | [] => [(key, value)]
  | entry :: entries =>
    if entry.1 = key then (key, value) :: entries else entry :: insert entries key value

theorem find_insert (map : KeyedMap κ β) (key other : κ) (value : β) :
    (map.insert key value).find other = if key = other then some value else map.find other := by
  induction map with
  | nil => rfl
  | cons entry entries ih =>
    by_cases hkey : entry.1 = key
    · rw [insert, if_pos hkey, find, find, hkey]
      split <;> rfl
    · rw [insert, if_neg hkey, find, find, ih]
      split
      · next hother => rw [if_neg fun h => hkey (hother.trans h.symm)]
      · rfl

theorem find_insertEntry (c : Comparison κ) (map : KeyedMap κ β) (key other : κ) (value : β) :
    find (SortedMap.insertEntry c key value map) other =
      if key = other then some value else map.find other := by
  induction map with
  | nil => rfl
  | cons entry entries ih =>
    rw [SortedMap.insertEntry]
    split
    · rfl
    · rename_i hbefore
      split
      · rename_i hafter
        rw [find, find, ih]
        split
        · next hother =>
          rw [if_neg]
          rintro rfl
          simp [hother, c.irrefl] at hafter
        · rfl
      · rename_i hafter
        rw [c.total (Bool.eq_false_iff.mpr hbefore) (Bool.eq_false_iff.mpr hafter), find, find]
        split <;> rfl

theorem find_eq_none {map : KeyedMap κ β} {key : κ} (h : key ∉ map.map Prod.fst) :
    map.find key = none := by
  induction map with
  | nil => rfl
  | cons entry entries ih =>
    rw [List.map_cons, List.mem_cons, not_or] at h
    rw [find, if_neg (Ne.symm h.1), ih h.2]

theorem find_eq_some_iff {map : KeyedMap κ β} (h : (map.map Prod.fst).Nodup) {key : κ} {value : β} :
    map.find key = some value ↔ (key, value) ∈ map := by
  induction map with
  | nil => simp [find]
  | cons entry entries ih =>
    obtain ⟨hfirst, hrest⟩ := List.nodup_cons.mp h
    by_cases hkey : entry.1 = key
    · subst hkey
      have hnone : (entry.1, value) ∉ entries := fun hmem =>
        hfirst (List.mem_map.mpr ⟨_, hmem, rfl⟩)
      simp [find, hnone, Prod.ext_iff, eq_comm]
    · have hne : (key, value) ≠ entry := fun heq => hkey (by rw [← heq])
      simp [find, hkey, ih hrest, hne]

/-- The values that have a key of their own, put in one after the other. -/
def insertAll (keyOf : β → Option κ) (map : KeyedMap κ β) (values : List β) : KeyedMap κ β :=
  values.foldl (fun map value => (keyOf value).elim map fun key => map.insert key value) map

theorem find_insertAll (keyOf : β → Option κ) (key : κ) (values : List β) :
    ∀ map : KeyedMap κ β, (insertAll keyOf map values).find key =
      ((values.filter fun value => keyOf value = some key).getLast?).or (map.find key) := by
  induction values using List.reverseRecOn with
  | nil => exact fun map => rfl
  | append_singleton values value ih =>
    intro map
    rw [insertAll, List.foldl_concat]
    change find ((keyOf value).elim (insertAll keyOf map values) fun k =>
      (insertAll keyOf map values).insert k value) key = _
    cases hkey : keyOf value with
    | none =>
      rw [Option.elim_none, ih]
      simp [hkey]
    | some k =>
      rw [Option.elim_some, find_insert, ih]
      by_cases hsame : k = key
      · simp [hkey, hsame]
      · simp [hkey, hsame]

end KeyedMap
