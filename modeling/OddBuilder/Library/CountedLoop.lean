import Mathlib.Order.MinMax
import Mathlib.Algebra.Order.Group.Int
import Mathlib.Data.Int.Range

/-!
# Counted loops

The two loops that count an integer up or down by one. The rules carry a fact
along the counter; a loop whose turns write apart is described place by place.
-/

namespace CountedLoop

open List

universe u v

variable {σ : Type u} {body : Int → σ → σ}

/-- `n` turns, counting up from `i`. -/
def up (body : Int → σ → σ) : Int → Nat → σ → σ
  | _, 0, s => s
  | i, n + 1, s => up body (i + 1) n (body i s)

/-- `n` turns, counting down from `i`. -/
def down (body : Int → σ → σ) : Int → Nat → σ → σ
  | _, 0, s => s
  | i, n + 1, s => down body (i - 1) n (body i s)

/-- `for (i = first; i < bound; ++i)` -/
def upTo (first bound : Int) (body : Int → σ → σ) (s : σ) : σ :=
  up body first (bound - first).toNat s

/-- `for (i = first; i >= last; --i)` -/
def downTo (first last : Int) (body : Int → σ → σ) (s : σ) : σ :=
  down body first (first - last + 1).toNat s

theorem up_rule {P : Int → σ → Prop} {n : Nat} {i : Int} {s : σ} (hstart : P i s)
    (hturn : ∀ j s, i ≤ j → j < i + n → P j s → P (j + 1) (body j s)) :
    P (i + n) (up body i n s) := by
  induction n generalizing i s with
  | zero => simpa [up] using hstart
  | succ n ih =>
    have hnext := ih (hturn i s (by omega) (by omega) hstart)
      fun j s hle hlt => hturn j s (by omega) (by omega)
    rwa [show i + 1 + (n : Int) = i + (n + 1 : Nat) by omega] at hnext

theorem down_rule {P : Int → σ → Prop} {n : Nat} {i : Int} {s : σ} (hstart : P i s)
    (hturn : ∀ j s, j ≤ i → i - n < j → P j s → P (j - 1) (body j s)) :
    P (i - n) (down body i n s) := by
  induction n generalizing i s with
  | zero => simpa [down] using hstart
  | succ n ih =>
    have hnext := ih (hturn i s (by omega) (by omega) hstart)
      fun j s hle hlt => hturn j s (by omega) (by omega)
    rwa [show i - 1 - (n : Int) = i - (n + 1 : Nat) by omega] at hnext

theorem upTo_rule {P : Int → σ → Prop} {first bound : Int} {s : σ} (hle : first ≤ bound)
    (hstart : P first s)
    (hturn : ∀ i s, first ≤ i → i < bound → P i s → P (i + 1) (body i s)) :
    P bound (upTo first bound body s) := by
  have hend := up_rule (n := (bound - first).toNat) hstart
    fun j s hge hlt => hturn j s hge (by omega)
  rwa [show first + ((bound - first).toNat : Int) = bound by omega] at hend

theorem downTo_rule {P : Int → σ → Prop} {first last : Int} {s : σ} (hle : last ≤ first + 1)
    (hstart : P first s)
    (hturn : ∀ i s, last ≤ i → i ≤ first → P i s → P (i - 1) (body i s)) :
    P (last - 1) (downTo first last body s) := by
  have hend := down_rule (n := (first - last + 1).toNat) hstart
    fun j s hge hlt => hturn j s (by omega) hge
  rwa [show first - ((first - last + 1).toNat : Int) = last - 1 by omega] at hend

@[simp] theorem upTo_empty {first bound : Int} (hle : bound ≤ first) (s : σ) :
    upTo first bound body s = s := by
  rw [upTo, show (bound - first).toNat = 0 by omega]
  rfl

@[simp] theorem downTo_empty {first last : Int} (hlt : first < last) (s : σ) :
    downTo first last body s = s := by
  rw [downTo, show (first - last + 1).toNat = 0 by omega]
  rfl

/-- What each turn keeps, the loop keeps. -/
theorem upTo_keeps {P : σ → Prop} {first bound : Int} {s : σ} (hstart : P s)
    (hturn : ∀ i s, first ≤ i → i < bound → P s → P (body i s)) :
    P (upTo first bound body s) := by
  rcases Int.le_total first bound with hle | hle
  · exact upTo_rule (P := fun _ => P) hle hstart hturn
  · rwa [upTo_empty hle]

theorem downTo_keeps {P : σ → Prop} {first last : Int} {s : σ} (hstart : P s)
    (hturn : ∀ i s, last ≤ i → i ≤ first → P s → P (body i s)) :
    P (downTo first last body s) := by
  by_cases hle : last ≤ first + 1
  · exact downTo_rule (P := fun _ => P) hle hstart hturn
  · rwa [downTo_empty (by omega)]

/-- What no turn changes is what it was. -/
theorem upTo_same {τ : Type v} {f : σ → τ} {first bound : Int} {s : σ}
    (hturn : ∀ i s, first ≤ i → i < bound → f (body i s) = f s) :
    f (upTo first bound body s) = f s :=
  upTo_keeps (P := fun t => f t = f s) rfl fun i t hge hlt ht => (hturn i t hge hlt).trans ht

theorem downTo_same {τ : Type v} {f : σ → τ} {first last : Int} {s : σ}
    (hturn : ∀ i s, last ≤ i → i ≤ first → f (body i s) = f s) :
    f (downTo first last body s) = f s :=
  downTo_keeps (P := fun t => f t = f s) rfl fun i t hge hlt ht => (hturn i t hge hlt).trans ht

/-- A change that commutes with every turn commutes with the loop. -/
theorem upTo_comm {f : σ → σ} {first bound : Int}
    (hturn : ∀ i s, body i (f s) = f (body i s)) (s : σ) :
    upTo first bound body (f s) = f (upTo first bound body s) := by
  unfold upTo
  generalize (bound - first).toNat = n
  induction n generalizing first s with
  | zero => rfl
  | succ n ih => rw [up, up, hturn, ih]

theorem up_eq_foldl (body : Int → σ → σ) (i : Int) (n : Nat) (s : σ) :
    up body i n s = ((List.range n).map fun k : Nat => i + (k : Int)).foldl
      (fun s j => body j s) s := by
  induction n generalizing i s with
  | zero => rfl
  | succ n ih =>
    have hshift : ((List.range n).map fun k : Nat => i + ((k + 1 : Nat) : Int)) =
        (List.range n).map fun k : Nat => i + 1 + (k : Int) :=
      map_congr_left fun k _ => by omega
    rw [up, ih, range_succ_eq_map, map_cons, map_map, show i + ((0 : Nat) : Int) = i by omega]
    exact congrArg _ hshift.symm

theorem upTo_eq_foldl (body : Int → σ → σ) (first bound : Int) (s : σ) :
    upTo first bound body s = (Int.range first bound).foldl (fun s i => body i s) s :=
  up_eq_foldl body first _ s

/-- The turns of a loop inside a loop, row by row. -/
def turns (first bound first' bound' : Int) : List (Int × Int) :=
  (Int.range first bound).flatMap fun i => (Int.range first' bound').map fun j => (i, j)

variable {first bound first' bound' : Int}

theorem upTo_upTo (body : Int → Int → σ → σ) (s : σ) :
    upTo first bound (fun i s => upTo first' bound' (body i) s) s =
      (turns first bound first' bound').foldl (fun s p => body p.1 p.2 s) s := by
  simp [turns, foldl_flatMap, foldl_map, upTo_eq_foldl]

theorem mem_turns {p : Int × Int} : p ∈ turns first bound first' bound' ↔
    (first ≤ p.1 ∧ p.1 < bound) ∧ first' ≤ p.2 ∧ p.2 < bound' := by
  obtain ⟨i, j⟩ := p
  simp only [turns, mem_flatMap, mem_map, Int.mem_range_iff, Prod.mk.injEq]
  constructor
  · rintro ⟨_, hi, _, hj, rfl, rfl⟩
    exact ⟨hi, hj⟩
  · rintro ⟨hi, hj⟩
    exact ⟨i, hi, j, hj, rfl, rfl⟩

/-- An earlier turn of the two loops. -/
def Earlier (p q : Int × Int) : Prop := p.1 < q.1 ∨ p.1 = q.1 ∧ p.2 < q.2

theorem range_sorted (first bound : Int) : (Int.range first bound).Pairwise (· < ·) := by
  rw [Int.range, pairwise_map]
  exact pairwise_lt_range.imp fun h => by omega

theorem turns_sorted (first bound first' bound' : Int) :
    (turns first bound first' bound').Pairwise Earlier := by
  rw [turns, pairwise_flatMap]
  constructor
  · intro i _
    rw [pairwise_map]
    exact (range_sorted first' bound').imp fun h => Or.inr ⟨rfl, h⟩
  · refine (range_sorted first bound).imp fun h p hp q hq => ?_
    obtain ⟨j, -, rfl⟩ := mem_map.1 hp
    obtain ⟨j', -, rfl⟩ := mem_map.1 hq
    exact Or.inl h

/-- What holds between every turn and the later ones. -/
theorem turns_pairwise_iff {R : Int × Int → Int × Int → Prop} :
    (turns first bound first' bound').Pairwise R ↔
      ∀ p ∈ turns first bound first' bound', ∀ q ∈ turns first bound first' bound',
        Earlier p q → R p q := by
  have hsorted := turns_sorted first bound first' bound'
  constructor
  · intro hpairs p hp q hq
    refine List.Pairwise.forall_of_forall_of_flip (R := fun p q => Earlier p q → R p q)
      (fun x _ hx => ?_) ?_ ?_ hp hq
    · unfold Earlier at hx
      omega
    · refine hpairs.imp ?_
      intro _ _ h _
      exact h
    · refine hsorted.imp fun {a b} hab hba => ?_
      unfold Earlier at hab hba
      omega
  · exact fun h => hsorted.imp_of_mem fun hp hq hlt => h _ hp _ hq hlt

end CountedLoop
