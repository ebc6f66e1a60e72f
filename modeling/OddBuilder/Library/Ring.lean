import Mathlib.Data.Nat.ModEq
import Mathlib.Logic.Function.Basic

/-!
# Rings

Positions grow without bound and stand in the slot that is their rest modulo the
capacity. As many positions in a row as the capacity have slots of their own.
-/

namespace Ring

variable {α : Type}
variable {cap start : Nat} {slots : Nat → α} {items : List α}

/-- Two positions less than a capacity apart have different slots. -/
theorem slot_ne {p q : Nat} (hlt : p < q) (hnear : q < p + cap) : p % cap ≠ q % cap := by
  intro heq
  have hdvd : cap ∣ q - p := (Nat.modEq_iff_dvd' (Nat.le_of_lt hlt)).mp heq
  have hle := Nat.le_of_dvd (by omega) hdvd
  omega

/-- From a position on the slots hold the items. -/
def Holds (slots : Nat → α) (cap start : Nat) (items : List α) : Prop :=
  ∀ k a, items[k]? = some a → slots ((start + k) % cap) = a

theorem holds_nil (slots : Nat → α) (cap start : Nat) : Holds slots cap start [] :=
  fun _ _ h => nomatch h

theorem holds_append {more : List α} :
    Holds slots cap start (items ++ more) ↔
      Holds slots cap start items ∧ Holds slots cap (start + items.length) more := by
  constructor
  · intro h
    constructor
    · intro k a hk
      refine h k a ?_
      rw [List.getElem?_append_left (List.getElem?_eq_some_iff.mp hk).1]
      exact hk
    · intro k a hk
      have hall := h (items.length + k) a
      rw [List.getElem?_append_right (Nat.le_add_right _ _), Nat.add_sub_cancel_left] at hall
      rw [Nat.add_assoc]
      exact hall hk
  · rintro ⟨hitems, hmore⟩ k a hk
    by_cases hlt : k < items.length
    · rw [List.getElem?_append_left hlt] at hk
      exact hitems k a hk
    · rw [List.getElem?_append_right (by omega)] at hk
      have hslot := hmore (k - items.length) a hk
      rwa [show start + items.length + (k - items.length) = start + k by omega] at hslot

/-- Writing behind the items, less than a capacity from the first, leaves them alone. -/
theorem Holds.update {p : Nat} (h : Holds slots cap start items) (behind : start + items.length ≤ p)
    (near : p < start + cap) (a : α) :
    Holds (Function.update slots (p % cap) a) cap start items := by
  intro k b hk
  have hlt : k < items.length := (List.getElem?_eq_some_iff.mp hk).1
  rw [Function.update_of_ne (slot_ne (by omega) (by omega))]
  exact h k b hk

/-- The next item behind those the slots hold. -/
theorem Holds.snoc (h : Holds slots cap start items) (room : items.length < cap) (a : α) :
    Holds (Function.update slots ((start + items.length) % cap) a) cap start (items ++ [a]) := by
  apply holds_append.mpr
  constructor
  · exact h.update (Nat.le_refl _) (by omega) a
  · intro k b hk
    cases k with
    | zero =>
      obtain rfl : a = b := Option.some.inj hk
      simp
    | succ k => simp at hk

/-- The place of the `k`-th of `len` items copied to an offset: in one piece, or in two where the
ring ends. -/
def copyIndex (cap offset len k : Nat) : Nat :=
  if offset + len ≤ cap then offset + k
  else if k < cap - offset then offset + k
  else k - (cap - offset)

/-- The pieces of a copy that fits the ring lie in it, and are the slots of the positions. -/
theorem copyIndex_eq {pos len k : Nat} (hpos : 0 < cap) (hlen : len ≤ cap) (hk : k < len) :
    copyIndex cap (pos % cap) len k = (pos + k) % cap := by
  have hoffset := Nat.mod_lt pos hpos
  rw [Nat.add_mod, Nat.mod_eq_of_lt (show k < cap by omega)]
  generalize pos % cap = offset at hoffset ⊢
  unfold copyIndex
  split
  · rw [Nat.mod_eq_of_lt (by omega)]
  · split
    · rw [Nat.mod_eq_of_lt (by omega)]
    · rw [Nat.mod_eq_sub_mod (by omega), Nat.mod_eq_of_lt (by omega)]
      omega

end Ring
