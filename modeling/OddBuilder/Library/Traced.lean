import Mathlib.Data.List.Basic

/-!
# Computations with a trace

A computation reports events on its way and may fail; what it has reported by then
stays reported. What holds of every event of a sequence is what holds of every event
of its parts.
-/

structure Traced (ε α : Type) where
  events : List ε
  result : Option α

namespace Traced

variable {ε α β : Type}

instance : Monad (Traced ε) where
  pure a := ⟨[], some a⟩
  bind x f :=
    match x.result with
    | none => ⟨x.events, none⟩
    | some a => ⟨x.events ++ (f a).events, (f a).result⟩

def report (event : ε) : Traced ε Unit := ⟨[event], some ()⟩

def fail : Traced ε α := ⟨[], none⟩

/-- All events have the property. -/
def Every (P : ε → Prop) (x : Traced ε α) : Prop := ∀ event ∈ x.events, P event

@[simp] theorem result_pure (a : α) : (pure a : Traced ε α).result = some a := rfl

@[simp] theorem result_report (event : ε) : (report event).result = some () := rfl

@[simp] theorem result_bind (x : Traced ε α) (f : α → Traced ε β) :
    (x >>= f).result = x.result.bind fun a => (f a).result := by
  simp only [bind]
  cases x.result <;> rfl

variable {P : ε → Prop}

@[simp] theorem every_pure (a : α) : (pure a : Traced ε α).Every P := fun _ h => nomatch h

@[simp] theorem every_fail : (fail : Traced ε α).Every P := fun _ h => nomatch h

@[simp] theorem every_report (event : ε) : (report event).Every P ↔ P event := by
  simp [Every, report]

/-- The events of a sequence are those of the first part and, if that has a result, those of the
second part for it. -/
theorem every_bind (x : Traced ε α) (f : α → Traced ε β) :
    (x >>= f).Every P ↔ x.Every P ∧ ∀ a, x.result = some a → (f a).Every P := by
  simp only [Every, bind]
  cases hresult : x.result with
  | none =>
    refine ⟨fun h => ⟨h, ?_⟩, fun h => h.1⟩
    rintro a ⟨⟩
  | some a =>
    simp [or_imp, forall_and]

end Traced
