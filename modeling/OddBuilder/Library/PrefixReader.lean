import Mathlib.Data.List.Basic

/-!
# Readers

A reader takes what it needs from the front of its input and leaves the rest, or
fails. A steady reader does the same with more input behind, so that an input it
uses up has no beginning that it accepts. One error stands for a reader that
gave up; it says nothing about the input.
-/

/-- A reader of a list of symbols. -/
abbrev PrefixReader (σ ε α : Type) : Type := StateT (List σ) (Except ε) α

namespace PrefixReader

variable {σ ε α β : Type}
variable {f : PrefixReader σ ε α}

/-- The next `n` symbols. -/
def take (missing : ε) (n : Nat) : PrefixReader σ ε (List σ) := fun input =>
  if input.length < n then .error missing else .ok (input.take n, input.drop n)

theorem run_take_append (missing : ε) {n : Nat} {front : List σ} (h : front.length = n)
    (rest : List σ) : (take missing n).run (front ++ rest) = .ok (front, rest) := by
  simp [take, StateT.run, ← h]

theorem run_bind_eq_ok {g : α → PrefixReader σ ε β} {input rest : List σ} {a : α}
    (h : f.run input = .ok (a, rest)) : (f >>= g).run input = (g a).run rest := by
  rw [StateT.run_bind, h]
  rfl

/-- More input behind is left behind, and does not help a reader that gave up. -/
def Steady (gaveUp : ε) (f : PrefixReader σ ε α) : Prop :=
  ∀ input more,
    (∀ a rest, f.run input = .ok (a, rest) → f.run (input ++ more) = .ok (a, rest ++ more)) ∧
    (f.run input = .error gaveUp → f.run (input ++ more) = .error gaveUp)

variable {gaveUp : ε}

theorem Steady.pure (a : α) : Steady gaveUp (pure a : PrefixReader σ ε α) := by
  intro input more
  constructor
  · rintro a' rest ⟨⟩
    rfl
  · rintro ⟨⟩

theorem Steady.throw (e : ε) : Steady gaveUp (throw e : PrefixReader σ ε α) := by
  intro input more
  constructor
  · rintro a' rest ⟨⟩
  · intro h
    exact h

theorem Steady.take {missing : ε} (h : missing ≠ gaveUp) (n : Nat) :
    Steady gaveUp (take missing n : PrefixReader σ ε (List σ)) := by
  intro input more
  constructor
  · intro a rest htake
    simp only [PrefixReader.take, StateT.run] at htake ⊢
    split at htake
    · cases htake
    · cases htake
      rw [if_neg (by rw [List.length_append]; omega), List.take_append_of_le_length (by omega),
        List.drop_append_of_le_length (by omega)]
  · intro htake
    simp only [PrefixReader.take, StateT.run] at htake
    split at htake
    · exact absurd (Except.error.inj htake) h
    · cases htake

theorem Steady.bind {g : α → PrefixReader σ ε β} (hf : Steady gaveUp f)
    (hg : ∀ a, Steady gaveUp (g a)) : Steady gaveUp (f >>= g) := by
  intro input more
  cases hrun : f.run input with
  | error e =>
    have hbind : (f >>= g).run input = .error e := by
      rw [StateT.run_bind, hrun]
      rfl
    rw [hbind]
    constructor
    · rintro b rest ⟨⟩
    · rintro ⟨⟩
      rw [StateT.run_bind, (hf input more).2 hrun]
      rfl
  | ok result =>
    obtain ⟨a, rest⟩ := result
    rw [run_bind_eq_ok hrun, run_bind_eq_ok ((hf input more).1 a rest hrun)]
    exact hg a rest more

/-- No proper beginning of an input that is used up is accepted. -/
theorem Steady.refuses (hf : Steady gaveUp f) {input more : List σ} {a : α} (hmore : more ≠ [])
    (h : f.run (input ++ more) = .ok (a, [])) : ∃ e, e ≠ gaveUp ∧ f.run input = .error e := by
  cases hrun : f.run input with
  | error e =>
    refine ⟨e, ?_, rfl⟩
    rintro rfl
    rw [(hf input more).2 hrun] at h
    cases h
  | ok result =>
    obtain ⟨b, rest⟩ := result
    rw [(hf input more).1 b rest hrun] at h
    have hempty : rest ++ more = [] := congrArg Prod.snd (Except.ok.inj h)
    exact absurd (List.append_eq_nil_iff.mp hempty).2 hmore

end PrefixReader
