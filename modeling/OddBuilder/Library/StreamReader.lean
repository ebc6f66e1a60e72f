import Mathlib.Data.List.Basic

/-!
# Reading a stream in pieces

A stream reader takes one item at a time until it is in a final state, and leaves
what follows. A reader that takes whole pieces at a call does the same work if
every call ends as the single steps end. After a failure only what can be seen of
the state has to agree: such a reader may give up without taking the items that
made it fail.
-/

/-- A machine that reads one item at a time. -/
structure StreamReader (σ β : Type*) where
  step : σ → β → σ
  final : σ → Bool

namespace StreamReader

variable {σ β ω : Type*} (m : StreamReader σ β)
variable {s : σ} {failed : σ → Prop} {view : σ → ω}

/-- The state at the end of the items or in a final state, and the items left. -/
def run : σ → List β → σ × List β
  | s, [] => (s, [])
  | s, b :: items => if m.final s then (s, b :: items) else run (m.step s b) items

@[simp]
theorem run_nil (s : σ) : m.run s [] = (s, []) := rfl

theorem run_cons (h : m.final s = false) (b : β) (items : List β) :
    m.run s (b :: items) = m.run (m.step s b) items := by
  simp [run, h]

theorem run_final (h : m.final s = true) (items : List β) : m.run s items = (s, items) := by
  cases items with
  | nil => rfl
  | cons b items => simp [run, h]

theorem run_append (s : σ) (front items : List β) :
    m.run s (front ++ items) =
      if m.final (m.run s front).1 then ((m.run s front).1, (m.run s front).2 ++ items)
      else m.run (m.run s front).1 items := by
  induction front generalizing s with
  | nil =>
    split
    · exact m.run_final ‹_› items
    · rfl
  | cons b front ih =>
    by_cases h : m.final s = true
    · rw [m.run_final h, m.run_final h]
      simp [h]
    · have hs : m.final s = false := by simpa using h
      rw [List.cons_append, m.run_cons hs, m.run_cons hs, ih]

/-- Items that are all read bring the reader to where it reads on. -/
theorem run_append_of_nil {s' : σ} {front : List β} (h : m.run s front = (s', []))
    (items : List β) : m.run s (front ++ items) = m.run s' items := by
  rw [run_append, h]
  split
  · exact (m.run_final ‹_› items).symm
  · rfl

theorem run_left {items : List β} (h : m.final (m.run s items).1 = false) :
    (m.run s items).2 = [] := by
  induction items generalizing s with
  | nil => rfl
  | cons b items ih =>
    by_cases hs : m.final s = true
    · rw [m.run_final hs] at h
      exact absurd (hs.symm.trans h) (by simp)
    · rw [m.run_cons (by simpa using hs)] at h ⊢
      exact ih h

theorem run_left_length (s : σ) (items : List β) : (m.run s items).2.length ≤ items.length := by
  induction items generalizing s with
  | nil => exact Nat.le_refl _
  | cons b items ih =>
    by_cases hs : m.final s = true
    · simp [m.run_final hs]
    · rw [m.run_cons (by simpa using hs)]
      exact Nat.le_succ_of_le (ih _)

/-- What every step preserves holds at the end of every run. -/
theorem run_invariant (inv : σ → Prop) (hstep : ∀ s b, inv s → m.final s = false → inv (m.step s b))
    (hs : inv s) (items : List β) : inv (m.run s items).1 := by
  induction items generalizing s with
  | nil => exact hs
  | cons b items ih =>
    by_cases h : m.final s = true
    · rw [m.run_final h]
      exact hs
    · have hs' : m.final s = false := by simpa using h
      rw [m.run_cons hs']
      exact ih (hstep s b hs hs')

/-- Two ends of a run agree: they are equal, or both failed and look the same. -/
def Agree (failed : σ → Prop) (view : σ → ω) (x y : σ × List β) : Prop :=
  x = y ∨ (failed x.1 ∧ failed y.1 ∧ view x.1 = view y.1)

theorem Agree.symm {x y : σ × List β} (h : Agree failed view x y) : Agree failed view y x := by
  rcases h with h | ⟨hx, hy, hview⟩
  · exact Or.inl h.symm
  · exact Or.inr ⟨hy, hx, hview.symm⟩

theorem Agree.trans {x y z : σ × List β} (h : Agree failed view x y) (h' : Agree failed view y z) :
    Agree failed view x z := by
  rcases h with rfl | ⟨hx, hy, hview⟩
  · exact h'
  · rcases h' with rfl | ⟨-, hz, hview'⟩
    · exact Or.inr ⟨hx, hy, hview⟩
    · exact Or.inr ⟨hx, hz, hview.trans hview'⟩

/-- One call for each piece until a state is final; what the calls left, and the pieces not read. -/
def readPieces (call : σ → List β → σ × List β) : σ → List (List β) → σ × List β
  | s, [] => (s, [])
  | s, piece :: pieces =>
    if m.final (call s piece).1 then ((call s piece).1, (call s piece).2 ++ pieces.flatten)
    else
      ((readPieces call (call s piece).1 pieces).1,
        (call s piece).2 ++ (readPieces call (call s piece).1 pieces).2)

/-- Calls that agree with the steps read any pieces as the steps read all items. -/
theorem readPieces_agree {inv : σ → Prop} {call : σ → List β → σ × List β}
    (hfailed : ∀ s, failed s → m.final s = true)
    (hstep : ∀ s b, inv s → m.final s = false → inv (m.step s b))
    (hcall : ∀ s items, inv s → Agree failed view (call s items) (m.run s items)) (hs : inv s)
    (pieces : List (List β)) :
    Agree failed view (m.readPieces call s pieces) (m.run s pieces.flatten) := by
  induction pieces generalizing s with
  | nil => exact Or.inl rfl
  | cons piece pieces ih =>
    rw [readPieces, List.flatten_cons, run_append]
    rcases hcall s piece hs with heq | ⟨hx, hy, hview⟩
    · rw [heq]
      split
      · exact Or.inl rfl
      · rename_i hfinal
        have hfinal : m.final (m.run s piece).1 = false := by simpa using hfinal
        rw [m.run_left hfinal]
        exact ih (m.run_invariant inv hstep hs piece)
    · rw [if_pos (hfailed _ hx), if_pos (hfailed _ hy)]
      exact Or.inr ⟨hx, hy, hview⟩

end StreamReader
