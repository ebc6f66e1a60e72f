import OddBuilder.Json.Lexer

/-!
# What the lexer reads: numbers and literals

Each scan of the lexer comes to an answer without a read past the end, and what
it accepts is what the grammar says. A number or a literal must have a
terminator behind it.
-/

namespace JobJson

open JsonLexer Option Bool List

variable {r c t w ds : Bytes} {scan : Option Scan} {p : UInt8 → Bool} {b : UInt8}
  {type : JsonLexType}

@[simp] theorem atEnd_nil : atEnd [] = true := rfl

@[simp] theorem atEnd_cons (b : UInt8) (c : Bytes) : atEnd (b :: c) = false := rfl

@[simp] theorem current_cons (b : UInt8) (c : Bytes) : current (b :: c) = some b := rfl

@[simp] theorem advance_cons (b : UInt8) (c : Bytes) : advance (b :: c) = some c := rfl

theorem skipWhile_eq (p : UInt8 → Bool) (turns : Nat) :
    ∀ c, c.length < turns → skipWhile p turns c = some (c.dropWhile p) := by
  induction turns with
  | zero =>
    intro c h
    omega
  | succ turns ih =>
    intro c h
    cases c with
    | nil => simp [skipWhile]
    | cons b c =>
      have further := ih c (by simpa using h)
      by_cases hb : p b = true
      · simp [skipWhile, hb, further]
      · simp [skipWhile, hb]

theorem skipWhitespace_eq (c : Bytes) : skipWhitespace c = some (c.dropWhile isWhitespace) :=
  skipWhile_eq isWhitespace _ c (by omega)

theorem skipDigits_eq (c : Bytes) : skipDigits c = some (c.dropWhile isDigit) :=
  skipWhile_eq isDigit _ c (by omega)

theorem dropWhile_append (hw : ∀ b ∈ w, p b = true) : (w ++ c).dropWhile p = c.dropWhile p := by
  induction w with
  | nil => rfl
  | cons b w ih =>
    rw [cons_append, dropWhile_cons_of_pos (hw b (by simp))]
    exact ih fun d hd => hw d (by simp [hd])

/-- Nothing, or a byte of another kind. -/
def Stops (p : UInt8 → Bool) (c : Bytes) : Prop := ∀ b r, c = b :: r → p b = false

theorem Stops.dropWhile (h : Stops p c) : c.dropWhile p = c := by
  cases c with
  | nil => rfl
  | cons b c => rw [dropWhile_cons_of_neg (by simp [h b c rfl])]

theorem dropWhile_stops (p : UInt8 → Bool) (c : Bytes) : Stops p (c.dropWhile p) := by
  intro b r h
  have hne : c.dropWhile p ≠ [] := by simp [h]
  have hhead := head_dropWhile_not p hne
  simpa [h] using hhead

theorem dropWhile_split (p : UInt8 → Bool) (c : Bytes) :
    ∃ w, c = w ++ c.dropWhile p ∧ ∀ b ∈ w, p b = true := by
  refine ⟨c.takeWhile p, (takeWhile_append_dropWhile).symm, ?_⟩
  exact all_eq_true.mp all_takeWhile

theorem scanDigits_cons (first : UInt8 → Bool) (b : UInt8) (c : Bytes) :
    scanDigits first (b :: c) =
      some (if first b then .ok (c.dropWhile isDigit) else .error (b :: c)) := by
  by_cases hb : first b = true
  · simp [scanDigits, hb, skipDigits_eq]
  · simp [scanDigits, hb]

theorem scanDigits_total (first : UInt8 → Bool) (c : Bytes) :
    ∃ s, scanDigits first c = some s := by
  cases c with
  | nil => exact ⟨.error [], rfl⟩
  | cons b c => exact ⟨_, scanDigits_cons first b c⟩

theorem scanDigits_sound {first : UInt8 → Bool} (h : scanDigits first c = some (.ok r)) :
    ∃ b ds, c = b :: ds ++ r ∧ first b = true ∧ ∀ d ∈ ds, isDigit d = true := by
  cases c with
  | nil => cases h
  | cons b c =>
    rw [scanDigits_cons] at h
    split at h
    · rename_i hb
      obtain rfl := Except.ok.inj (Option.some.inj h)
      obtain ⟨ds, hsplit, hds⟩ := dropWhile_split isDigit c
      exact ⟨b, ds, by rw [cons_append, ← hsplit], hb, hds⟩
    · cases h

theorem scanDigits_complete {first : UInt8 → Bool} (hb : first b = true)
    (hds : ∀ d ∈ ds, isDigit d = true) (hr : Stops isDigit r) :
    scanDigits first (b :: ds ++ r) = some (.ok r) := by
  rw [cons_append, scanDigits_cons, if_pos hb, dropWhile_append hds, hr.dropWhile]

theorem isDigits_sound (h : scanDigits isDigit c = some (.ok r)) :
    ∃ ds, c = ds ++ r ∧ IsDigits ds := by
  obtain ⟨b, ds, rfl, hb, hds⟩ := scanDigits_sound h
  refine ⟨b :: ds, rfl, by simp, ?_⟩
  intro d hd
  rcases mem_cons.mp hd with rfl | hd
  · exact hb
  · exact hds d hd

theorem isDigits_complete (h : IsDigits ds) (hr : Stops isDigit r) :
    scanDigits isDigit (ds ++ r) = some (.ok r) := by
  obtain ⟨hne, hall⟩ := h
  cases ds with
  | nil => exact absurd rfl hne
  | cons b ds =>
    exact scanDigits_complete (hall b (by simp)) (fun d hd => hall d (by simp [hd])) hr

theorem consume_nil (e : UInt8) : consume e [] = some (false, []) := rfl

theorem consume_cons (e b : UInt8) (c : Bytes) :
    consume e (b :: c) = some (if b = e then (true, c) else (false, b :: c)) := by
  by_cases h : b = e <;> simp [consume, h]

theorem scanMinus_total (c : Bytes) : ∃ s, scanMinus c = some s := by
  cases c with
  | nil => exact ⟨_, rfl⟩
  | cons b c =>
    simp only [scanMinus, consume_cons, bind_eq_bind, bind_some]
    by_cases hb : b = minus
    · rw [if_pos hb]
      split <;> exact ⟨_, rfl⟩
    · rw [if_neg hb]
      exact ⟨_, rfl⟩

theorem scanMinus_sound (h : scanMinus c = some (.ok r)) :
    ∃ sign, c = sign ++ r ∧ (sign = [] ∨ sign = [minus]) := by
  cases c with
  | nil =>
    refine ⟨[], ?_, Or.inl rfl⟩
    simpa [scanMinus, consume_nil] using h
  | cons b c =>
    simp only [scanMinus, consume_cons, bind_eq_bind, bind_some] at h
    by_cases hb : b = minus
    · rw [if_pos hb] at h
      split at h
      · cases h
      · obtain rfl := Except.ok.inj (Option.some.inj h)
        exact ⟨[b], rfl, Or.inr (by rw [hb])⟩
    · rw [if_neg hb] at h
      obtain rfl := Except.ok.inj (Option.some.inj h)
      exact ⟨[], rfl, Or.inl rfl⟩

theorem scanMinus_complete {sign : Bytes} (hsign : sign = [] ∨ sign = [minus])
    (hc : ∃ b r, c = b :: r ∧ b ≠ minus) : scanMinus (sign ++ c) = some (.ok c) := by
  obtain ⟨b, r, rfl, hb⟩ := hc
  rcases hsign with rfl | rfl
  · simp [scanMinus, consume_cons, hb]
  · simp [scanMinus, consume_cons]

theorem scanInt_total (c : Bytes) : ∃ s, scanInt c = some s := by
  cases c with
  | nil => exact ⟨_, rfl⟩
  | cons b c =>
    simp only [scanInt, consume_cons, bind_eq_bind, bind_some]
    by_cases hb : b = zero
    · simp only [hb, if_true]
      cases c with
      | nil => exact ⟨_, rfl⟩
      | cons d c =>
        simp only [atEnd_cons, current_cons, bind_some, false_eq_true, if_false]
        split <;> exact ⟨_, rfl⟩
    · simp only [hb]
      exact scanDigits_total isDigit19 (b :: c)

theorem scanInt_sound (h : scanInt c = some (.ok r)) :
    ∃ t, c = t ++ r ∧ IsInt t ∧ Stops isDigit r := by
  cases c with
  | nil => cases h
  | cons b c =>
    simp only [scanInt, consume_cons, bind_eq_bind, bind_some] at h
    by_cases hb : b = zero
    · subst hb
      simp only [if_true] at h
      cases c with
      | nil =>
        obtain rfl := Except.ok.inj (Option.some.inj h)
        exact ⟨[zero], rfl, Or.inl rfl, by intro b r h; cases h⟩
      | cons d c =>
        simp only [atEnd_cons, current_cons, bind_some, false_eq_true, if_false] at h
        split at h
        · cases h
        · rename_i hd
          obtain rfl := Except.ok.inj (Option.some.inj h)
          refine ⟨[zero], rfl, Or.inl rfl, ?_⟩
          intro b r h
          obtain ⟨rfl⟩ := List.cons.inj h
          simpa using hd
    · simp only [hb, if_false, false_eq_true] at h
      have stops : Stops isDigit r := by
        rw [scanDigits_cons] at h
        split at h
        · obtain rfl := Except.ok.inj (Option.some.inj h)
          exact dropWhile_stops isDigit c
        · cases h
      obtain ⟨d, ds, hsplit, hd, hds⟩ := scanDigits_sound h
      exact ⟨d :: ds, hsplit, Or.inr ⟨d, ds, rfl, hd, hds⟩, stops⟩

theorem scanInt_complete (ht : IsInt t) (hr : Stops isDigit r) :
    scanInt (t ++ r) = some (.ok r) := by
  rcases ht with rfl | ⟨c, ds, rfl, hc, hds⟩
  · cases r with
    | nil => rfl
    | cons b r => simp [scanInt, consume_cons, hr b r rfl]
  · have hzero : c ≠ zero := by
      rintro rfl
      simp [isDigit19, zero] at hc
    simp only [scanInt, cons_append, consume_cons, hzero]
    exact scanDigits_complete hc hds hr

theorem Stops.mono {q : UInt8 → Bool} (h : ∀ b, p b = true → q b = true) (hc : Stops q c) :
    Stops p c := by
  intro b r hcons
  have hq := hc b r hcons
  by_contra hp
  rw [h b (by simpa using hp)] at hq
  cases hq

/-- Bytes with which a number could go on. -/
def isNumberByte (b : UInt8) : Bool := isDigit b || b == decimalPoint || isE b

theorem scanFraction_total (c : Bytes) : ∃ s, scanFraction c = some s := by
  cases c with
  | nil => exact ⟨_, rfl⟩
  | cons b c =>
    simp only [scanFraction, atEnd_cons, current_cons, bind_eq_bind,
      bind_some, false_eq_true, if_false]
    split
    · exact ⟨_, rfl⟩
    · exact scanDigits_total isDigit c

theorem scanFraction_sound (h : scanFraction c = some (.ok r)) : ∃ t, c = t ++ r ∧ IsFrac t := by
  cases c with
  | nil =>
    obtain rfl := Except.ok.inj (Option.some.inj h)
    exact ⟨[], rfl, Or.inl rfl⟩
  | cons b c =>
    simp only [scanFraction, atEnd_cons, current_cons, bind_eq_bind,
      bind_some, false_eq_true, if_false] at h
    split at h
    · obtain rfl := Except.ok.inj (Option.some.inj h)
      exact ⟨[], rfl, Or.inl rfl⟩
    · rename_i hb
      obtain ⟨ds, rfl, hds⟩ := isDigits_sound h
      exact ⟨b :: ds, rfl, Or.inr ⟨ds, by rw [not_not.mp hb], hds⟩⟩

theorem scanFraction_complete (ht : IsFrac t)
    (hr : Stops (fun b => isDigit b || b == decimalPoint) r) :
    scanFraction (t ++ r) = some (.ok r) := by
  have hdigit : Stops isDigit r := hr.mono (by simp +contextual)
  rcases ht with rfl | ⟨ds, rfl, hds⟩
  · cases r with
    | nil => rfl
    | cons b r =>
      have hb := hr b r rfl
      simp only [or_eq_false_iff, beq_eq_false_iff_ne] at hb
      simp [scanFraction, hb.2]
  · simp [scanFraction, isDigits_complete hds hdigit]

theorem scanExponentSign_cons (b : UInt8) (c : Bytes) :
    scanExponentSign (b :: c) = some (if b == plus || b == minus then c else b :: c) := by
  simp only [scanExponentSign, atEnd_cons, current_cons, bind_eq_bind,
    bind_some, false_eq_true, if_false]
  split <;> rfl

theorem scanExponentSign_sound (c : Bytes) :
    ∃ sign c', scanExponentSign c = some c' ∧ c = sign ++ c' ∧
      (sign = [] ∨ sign = [plus] ∨ sign = [minus]) := by
  cases c with
  | nil => exact ⟨[], [], rfl, rfl, Or.inl rfl⟩
  | cons b c =>
    rw [scanExponentSign_cons]
    split
    · rename_i hb
      refine ⟨[b], c, rfl, rfl, Or.inr ?_⟩
      simpa using hb
    · exact ⟨[], b :: c, rfl, rfl, Or.inl rfl⟩

theorem scanExponentSign_complete {sign : Bytes}
    (hsign : sign = [] ∨ sign = [plus] ∨ sign = [minus]) (hds : IsDigits ds) :
    scanExponentSign (sign ++ (ds ++ r)) = some (ds ++ r) := by
  rcases hsign with rfl | rfl | rfl
  · obtain ⟨hne, hall⟩ := hds
    cases ds with
    | nil => exact absurd rfl hne
    | cons b ds =>
      have hb := hall b (by simp)
      have hsign : (b == plus || b == minus) = false := by
        by_contra hsign
        have hsign : b = plus ∨ b = minus := by simpa [or_iff_not_imp_left] using hsign
        rcases hsign with rfl | rfl <;> simp [isDigit, plus, minus] at hb
      simp [scanExponentSign_cons, hsign]
  · simp [scanExponentSign_cons]
  · simp [scanExponentSign_cons]

theorem scanExponent_total (c : Bytes) : ∃ s, scanExponent c = some s := by
  cases c with
  | nil => exact ⟨_, rfl⟩
  | cons b c =>
    simp only [scanExponent, atEnd_cons, current_cons, advance_cons, bind_eq_bind,
      bind_some, false_eq_true, if_false]
    split
    · exact ⟨_, rfl⟩
    · obtain ⟨sign, c', hc', _⟩ := scanExponentSign_sound c
      rw [hc']
      exact scanDigits_total isDigit c'

theorem scanExponent_sound (h : scanExponent c = some (.ok r)) : ∃ t, c = t ++ r ∧ IsExp t := by
  cases c with
  | nil =>
    obtain rfl := Except.ok.inj (Option.some.inj h)
    exact ⟨[], rfl, Or.inl rfl⟩
  | cons b c =>
    simp only [scanExponent, atEnd_cons, current_cons, advance_cons, bind_eq_bind,
      bind_some, false_eq_true, if_false] at h
    split at h
    · obtain rfl := Except.ok.inj (Option.some.inj h)
      exact ⟨[], rfl, Or.inl rfl⟩
    · rename_i hb
      obtain ⟨sign, c', hc', rfl, hsign⟩ := scanExponentSign_sound c
      rw [hc'] at h
      obtain ⟨ds, rfl, hds⟩ := isDigits_sound h
      refine ⟨b :: (sign ++ ds), by simp, Or.inr ⟨b, sign, ds, rfl, ?_, hsign, hds⟩⟩
      simpa using hb

theorem scanExponent_complete (ht : IsExp t) (hr : Stops isNumberByte r) :
    scanExponent (t ++ r) = some (.ok r) := by
  have hdigit : Stops isDigit r := hr.mono (by simp +contextual [isNumberByte])
  rcases ht with rfl | ⟨e, sign, ds, rfl, he, hsign, hds⟩
  · cases r with
    | nil => rfl
    | cons b r =>
      have hb := hr b r rfl
      simp only [isNumberByte, or_eq_false_iff] at hb
      simp [scanExponent, hb.2]
  · have hskip := scanExponentSign_complete hsign hds (r := r)
    simp [scanExponent, he, hskip, isDigits_complete hds hdigit]

theorem andThen_total {next : JsonCursor → Option Scan} (hscan : ∃ s, scan = some s)
    (hnext : ∀ c, ∃ s, next c = some s) : ∃ s, andThen scan next = some s := by
  obtain ⟨s, rfl⟩ := hscan
  cases s with
  | error c => exact ⟨_, rfl⟩
  | ok c => exact hnext c

theorem andThen_ok {next : JsonCursor → Option Scan} (h : andThen scan next = some (.ok r)) :
    ∃ c, scan = some (.ok c) ∧ next c = some (.ok r) := by
  match scan, h with
  | none, h => cases h
  | some (.error c), h => cases h
  | some (.ok c), h => exact ⟨c, rfl, h⟩

/-- The four parts of a number, one behind the other. -/
def scanParts (c : JsonCursor) : Option Scan :=
  andThen (andThen (andThen (scanMinus c) scanInt) scanFraction) scanExponent

theorem scanParts_total (c : Bytes) : ∃ s, scanParts c = some s :=
  andThen_total (andThen_total (andThen_total (scanMinus_total c) scanInt_total)
    scanFraction_total) scanExponent_total

theorem scanParts_sound (h : scanParts c = some (.ok r)) : ∃ t, c = t ++ r ∧ IsNumber t := by
  obtain ⟨c₃, h, fourth⟩ := andThen_ok h
  obtain ⟨c₂, h, third⟩ := andThen_ok h
  obtain ⟨c₁, first, second⟩ := andThen_ok h
  obtain ⟨sign, rfl, hsign⟩ := scanMinus_sound first
  obtain ⟨int, rfl, hint, _⟩ := scanInt_sound second
  obtain ⟨frac, rfl, hfrac⟩ := scanFraction_sound third
  obtain ⟨exp, rfl, hexp⟩ := scanExponent_sound fourth
  exact ⟨sign ++ (int ++ (frac ++ exp)), by simp, sign, int, frac, exp, rfl, hsign, hint, hfrac,
    hexp⟩

theorem isInt_head (h : IsInt t) : ∃ b r, t = b :: r ∧ isDigit b = true := by
  rcases h with rfl | ⟨c, ds, rfl, hc, _⟩
  · exact ⟨zero, [], rfl, by decide⟩
  · refine ⟨c, ds, rfl, ?_⟩
    simp only [isDigit19, isDigit, and_eq_true, decide_eq_true_eq] at hc ⊢
    exact ⟨UInt8.le_trans (by decide) hc.1, hc.2⟩

theorem isDigit_ne_minus (h : isDigit b = true) : b ≠ minus := by
  rintro rfl
  simp [isDigit, minus] at h

theorem scanParts_complete (ht : IsNumber t) (hr : Stops isNumberByte r) :
    scanParts (t ++ r) = some (.ok r) := by
  obtain ⟨sign, int, frac, exp, rfl, hsign, hint, hfrac, hexp⟩ := ht
  have hminus : scanMinus (sign ++ (int ++ (frac ++ (exp ++ r)))) =
      some (.ok (int ++ (frac ++ (exp ++ r)))) := by
    obtain ⟨b, ds, rfl, hb⟩ := isInt_head hint
    exact scanMinus_complete hsign ⟨b, _, rfl, isDigit_ne_minus hb⟩
  have hstopExp : Stops (fun b => isDigit b || b == decimalPoint) (exp ++ r) := by
    rcases hexp with rfl | ⟨e, s, ds, rfl, he, _⟩
    · exact hr.mono (by simp +contextual [isNumberByte])
    · intro b r' hcons
      obtain ⟨rfl⟩ := List.cons.inj hcons
      have he : e = 101 ∨ e = 69 := by simpa [isE] using he
      rcases he with rfl | rfl <;> decide
  have hstopFrac : Stops isDigit (frac ++ (exp ++ r)) := by
    rcases hfrac with rfl | ⟨ds, rfl, _⟩
    · exact hstopExp.mono (by simp +contextual)
    · intro b r' hcons
      obtain ⟨rfl⟩ := List.cons.inj hcons
      decide
  simp only [append_assoc, scanParts]
  rw [hminus]
  simp [andThen, scanInt_complete hint hstopFrac,
    scanFraction_complete hfrac hstopExp, scanExponent_complete hexp hr]

theorem scanExpected_total (literal : Bytes) : ∀ c, ∃ s, scanExpected literal c = some s := by
  induction literal with
  | nil => exact fun c => ⟨_, rfl⟩
  | cons e literal ih =>
    intro c
    cases c with
    | nil => exact ⟨_, rfl⟩
    | cons b c =>
      simp only [scanExpected, atEnd_cons, current_cons, bind_eq_bind,
        bind_some, false_eq_true, if_false]
      split
      · exact ⟨_, rfl⟩
      · exact ih c

theorem scanExpected_sound {literal : Bytes} :
    ∀ {c r : Bytes}, scanExpected literal c = some (.ok r) → c = literal ++ r := by
  induction literal with
  | nil =>
    intro c r h
    exact Except.ok.inj (Option.some.inj h)
  | cons e literal ih =>
    intro c r h
    cases c with
    | nil => cases h
    | cons b c =>
      simp only [scanExpected, atEnd_cons, current_cons, bind_eq_bind,
        bind_some, false_eq_true, if_false] at h
      split at h
      · cases h
      · rename_i hb
        rw [not_not.mp hb, ih h, cons_append]

theorem scanExpected_complete (literal r : Bytes) :
    scanExpected literal (literal ++ r) = some (.ok r) := by
  induction literal with
  | nil => rfl
  | cons e literal ih => simp [scanExpected, ih]

def isTerminator (b : UInt8) : Bool :=
  isWhitespace b || b == nameSeparator || b == valueSeparator || b == endArray || b == endObject

/-- The end of the source, or a byte that ends a value. -/
def Terminated (r : Bytes) : Prop := ∀ b r', r = b :: r' → isTerminator b = true

theorem isValueTerminator_total (c : Bytes) : ∃ b, isValueTerminator c = some b := by
  cases c with
  | nil => exact ⟨_, rfl⟩
  | cons b c => exact ⟨_, rfl⟩

theorem isValueTerminator_iff (c : Bytes) : isValueTerminator c = some true ↔ Terminated c := by
  cases c with
  | nil =>
    simp only [isValueTerminator, atEnd_nil, if_true, true_iff]
    intro b r' h
    cases h
  | cons b c =>
    constructor
    · intro h b' r' hcons
      obtain ⟨rfl⟩ := List.cons.inj hcons
      exact Option.some.inj h
    · intro h
      have hb := h b c rfl
      exact congrArg some hb

theorem Terminated.stops (h : Terminated r) : Stops isNumberByte r := by
  intro b r' hcons
  have hb := h b r' hcons
  simp only [isTerminator, isWhitespace, or_eq_true, beq_iff_eq] at hb
  rcases hb with ((((((rfl | rfl) | rfl) | rfl) | rfl) | rfl) | rfl) | rfl <;> decide

/-- White space and then a byte that ends a value. -/
theorem terminated_ws (hw : IsWs w) (hb : isTerminator b = true) : Terminated (w ++ b :: r) := by
  intro d r' hcons
  cases w with
  | nil =>
    obtain ⟨rfl⟩ := List.cons.inj hcons
    exact hb
  | cons v w =>
    obtain ⟨rfl⟩ := List.cons.inj hcons
    simp [isTerminator, hw v (by simp)]

theorem terminated_end (hw : IsWs w) : Terminated w := by
  intro b r' hcons
  subst hcons
  simp [isTerminator, hw b (by simp)]

theorem lexFrom_view (type : JsonLexType) (t r : Bytes) (hasEscapes : Bool) :
    lexFrom type (t ++ r) r hasEscapes = ⟨type, t, hasEscapes⟩ := by
  simp [lexFrom]

theorem invalidFrom_total (begin c : Bytes) :
    ∃ lex c', invalidFrom begin c = some (lex, c') ∧ lex.type = .invalid := by
  cases c with
  | nil => exact ⟨_, _, rfl, rfl⟩
  | cons b c => exact ⟨_, _, rfl, rfl⟩

theorem closeValue_total {begin : Bytes} (h : ∃ s, scan = some s) :
    ∃ p, closeValue type begin scan = some p := by
  obtain ⟨s, rfl⟩ := h
  cases s with
  | error c =>
    obtain ⟨lex, c', hinvalid, _⟩ := invalidFrom_total begin c
    exact ⟨_, hinvalid⟩
  | ok c =>
    obtain ⟨b, hb⟩ := isValueTerminator_total c
    simp only [closeValue, bind_eq_bind, bind_some, hb]
    split
    · exact ⟨_, rfl⟩
    · obtain ⟨lex, c', hinvalid, _⟩ := invalidFrom_total begin c
      exact ⟨_, hinvalid⟩

/-- A token of this kind has been scanned to its end and is terminated. -/
theorem closeValue_sound {begin : Bytes} {lex : JsonLex}
    (h : closeValue type begin scan = some (lex, c)) (hvalid : lex.type ≠ .invalid) :
    scan = some (.ok c) ∧ Terminated c ∧ lex = lexFrom type begin c false := by
  match scan, h with
  | none, h => cases h
  | some (.error d), h =>
    obtain ⟨lex', c', hinvalid, htype⟩ := invalidFrom_total begin d
    simp only [closeValue, bind_eq_bind, bind_some, hinvalid] at h
    obtain ⟨rfl⟩ := Prod.mk.inj (Option.some.inj h)
    exact absurd htype hvalid
  | some (.ok d), h =>
    obtain ⟨b, hb⟩ := isValueTerminator_total d
    simp only [closeValue, bind_eq_bind, bind_some, hb] at h
    split at h
    · rename_i hterm
      obtain ⟨rfl, rfl⟩ := Prod.mk.inj (Option.some.inj h)
      exact ⟨rfl, (isValueTerminator_iff d).mp (by rw [hb, hterm]), rfl⟩
    · obtain ⟨lex', c', hinvalid, htype⟩ := invalidFrom_total begin d
      rw [hinvalid] at h
      obtain ⟨rfl⟩ := Prod.mk.inj (Option.some.inj h)
      exact absurd htype hvalid

theorem closeValue_complete (hscan : scan = some (.ok r)) (hr : Terminated r) :
    closeValue type (t ++ r) scan = some (⟨type, t, false⟩, r) := by
  rw [hscan]
  simp [closeValue, (isValueTerminator_iff r).mpr hr, lexFrom_view]

end JobJson
