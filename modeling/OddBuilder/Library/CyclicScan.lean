import Mathlib.Data.List.Basic

/-!
# Cyclic scans

A scan of `n` places that begins at a cursor and goes around once. What it finds
lies between the cursor and every other hit, and the cursor behind the place
found leaves a shorter way. The way does not depend on `n`: places added at the
end lie behind those that the scan has passed.
-/

namespace CyclicScan

/-- On the way from `cursor` up to `goal`, both included, possibly around the end. -/
def Within (cursor goal x : Nat) : Prop :=
  if cursor ≤ goal then cursor ≤ x ∧ x ≤ goal else cursor ≤ x ∨ x ≤ goal

/-- The first turn of the scan that finds something. -/
def scan (n cursor : Nat) (hit : Nat → Bool) : Option Nat :=
  (List.range n).find? fun i => hit ((cursor + i) % n)

variable {n cursor : Nat} {hit : Nat → Bool}

theorem turn_of_place {goal : Nat} (hcursor : cursor < n) (hgoal : goal < n) :
    ∃ i < n, (cursor + i) % n = goal ∧ (cursor ≤ goal → i = goal - cursor) ∧
      (goal < cursor → i = n - cursor + goal) := by
  rcases Nat.lt_or_ge goal cursor with hlt | hge
  · refine ⟨n - cursor + goal, by omega, ?_, by omega, fun _ => rfl⟩
    rw [show cursor + (n - cursor + goal) = goal + n by omega, Nat.add_mod_right,
      Nat.mod_eq_of_lt hgoal]
  · refine ⟨goal - cursor, by omega, ?_, fun _ => rfl, by omega⟩
    rw [show cursor + (goal - cursor) = goal by omega, Nat.mod_eq_of_lt hgoal]

/-- A hit somewhere is found. -/
theorem scan_isSome {goal : Nat} (hcursor : cursor < n) (hgoal : goal < n)
    (hhit : hit goal = true) : (scan n cursor hit).isSome = true := by
  obtain ⟨i, hi, heq, -⟩ := turn_of_place hcursor hgoal
  rw [scan, List.find?_isSome]
  exact ⟨i, List.mem_range.2 hi, by rwa [heq]⟩

theorem scan_hit {i : Nat} (h : scan n cursor hit = some i) :
    hit ((cursor + i) % n) = true ∧ i < n := by
  obtain ⟨hfound, hmem, -⟩ := List.find?_range_eq_some.1 h
  exact ⟨hfound, List.mem_range.1 hmem⟩

/-- The place found is on the way to every hit. -/
theorem scan_within {i goal : Nat} (hcursor : cursor < n) (hgoal : goal < n)
    (hhit : hit goal = true) (h : scan n cursor hit = some i) :
    Within cursor goal ((cursor + i) % n) := by
  obtain ⟨d, hd, hplace, hup⟩ := turn_of_place hcursor hgoal
  have hle : i ≤ d := by
    obtain ⟨-, hfirst⟩ := List.find?_range_eq_some.1 h
    by_contra hlt
    have hmiss := hfirst.2 d (by omega)
    rw [hplace, hhit] at hmiss
    cases hmiss
  unfold Within
  rcases Nat.lt_or_ge (cursor + i) n with hsmall | hlarge
  · rw [Nat.mod_eq_of_lt hsmall]
    split <;> omega
  · rw [Nat.mod_eq_sub_mod hlarge, Nat.mod_eq_of_lt (by omega)]
    split <;> omega

/-- Behind the place found the way is the rest of the way, without that place. -/
theorem within_next {place goal x : Nat} (hgoal : goal < n) (hplace : place < n)
    (hne : place ≠ goal) (hway : Within cursor goal place)
    (hx : Within ((place + 1) % n) goal x) : Within cursor goal x ∧ x ≠ place := by
  unfold Within at *
  rcases Nat.lt_or_ge (place + 1) n with hsmall | hlarge
  · rw [Nat.mod_eq_of_lt hsmall] at hx
    constructor
    · split at hway <;> split at hx <;> split <;> omega
    · split at hway <;> split at hx <;> omega
  · have hend : (place + 1) % n = 0 := by
      rw [show place + 1 = n by omega, Nat.mod_self]
    constructor
    · split at hway <;> split at hx <;> split <;> omega
    · split at hway <;> split at hx <;> omega

end CyclicScan
