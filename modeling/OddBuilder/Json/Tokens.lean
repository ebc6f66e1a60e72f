import OddBuilder.Json.Scans

/-!
# What the lexer reads: strings and tokens

The lexer never reads past the end and always comes to an answer. The tokens it
does not call invalid are exactly the ones of the grammar, with the white space
in front of them.
-/

namespace JobJson

open JsonLexer List

variable {r c : Bytes} {lex : JsonLex} {b : UInt8}

theorem isEscapable_eq (c : UInt8) : isEscapable c = (shortEscape c).isSome := by
  simp only [isEscapable, shortEscape]
  split_ifs <;> simp_all

theorem scanHex_total (count : Nat) : ∀ c, ∃ s, scanHex count c = some s := by
  induction count with
  | zero => exact fun c => ⟨_, rfl⟩
  | succ count ih =>
    intro c
    cases c with
    | nil => exact ⟨_, rfl⟩
    | cons b c =>
      simp only [scanHex, atEnd_cons, current_cons, Option.bind_eq_bind,
        Option.bind_some, Bool.false_eq_true, if_false]
      split
      · exact ⟨_, rfl⟩
      · exact ih c

theorem scanHex_sound {count : Nat} :
    ∀ {c r : Bytes}, scanHex count c = some (.ok r) →
      ∃ hs, c = hs ++ r ∧ hs.length = count ∧ ∀ h ∈ hs, isHexDigit h = true := by
  induction count with
  | zero =>
    intro c r h
    obtain rfl := Except.ok.inj (Option.some.inj h)
    exact ⟨[], rfl, rfl, by simp⟩
  | succ count ih =>
    intro c r h
    cases c with
    | nil => cases h
    | cons b c =>
      simp only [scanHex, atEnd_cons, current_cons, Option.bind_eq_bind,
        Option.bind_some, Bool.false_eq_true, if_false] at h
      split at h
      · cases h
      · rename_i hb
        obtain ⟨hs, rfl, hlen, hall⟩ := ih h
        refine ⟨b :: hs, rfl, by simp [hlen], ?_⟩
        intro d hd
        rcases mem_cons.mp hd with rfl | hd
        · simpa using hb
        · exact hall d hd

theorem scanHex_complete {a c d : UInt8} (ha : isHexDigit a = true) (hb : isHexDigit b = true)
    (hc : isHexDigit c = true) (hd : isHexDigit d = true) :
    scanHex 4 (a :: b :: c :: d :: r) = some (.ok r) := by
  simp [scanHex, ha, hb, hc, hd]

theorem scanStringLoop_total (begin : Bytes) (turns : Nat) :
    ∀ hasEscapes c, c.length < turns →
      ∃ p, scanStringLoop begin turns hasEscapes c = some p := by
  induction turns with
  | zero =>
    intro hasEscapes c h
    omega
  | succ turns ih =>
    intro hasEscapes c h
    cases c with
    | nil => exact ⟨_, rfl⟩
    | cons b c =>
      have hlen : c.length < turns := by simpa using h
      have refused : ∀ c, ∃ p, invalidFrom begin c = some p := by
        intro c
        obtain ⟨lex, c', hinvalid, _⟩ := invalidFrom_total begin c
        exact ⟨_, hinvalid⟩
      simp only [scanStringLoop, atEnd_cons, current_cons, Option.bind_eq_bind,
        Option.bind_some, Bool.false_eq_true, if_false]
      split
      · exact ⟨_, rfl⟩
      split
      · cases c with
        | nil => exact refused []
        | cons e c =>
          have hshort : c.length < turns := by
            simp only [length_cons] at hlen
            omega
          simp only [atEnd_cons, current_cons, advance_cons, Option.bind_some, Bool.false_eq_true,
            if_false]
          split
          · exact ih true c hshort
          split
          · obtain ⟨s, hs⟩ := scanHex_total 4 c
            rw [hs]
            cases s with
            | error d => exact refused d
            | ok d =>
              obtain ⟨hs', rfl, _⟩ := scanHex_sound hs
              refine ih true d ?_
              simp only [length_append] at hshort
              omega
          · exact refused (e :: c)
      split
      · exact refused (b :: c)
      · exact ih hasEscapes c hlen

theorem charsText_cons (c : JsonChar) (cs : List JsonChar) :
    charsText (c :: cs) = c.text ++ charsText cs := by
  simp [charsText]

/-- An accepted string is a row of characters of the grammar, and its flag says whether one of them
is an escape. -/
theorem scanStringLoop_sound (begin : Bytes) (turns : Nat) :
    ∀ hasEscapes c lex r, scanStringLoop begin turns hasEscapes c = some (lex, r) →
      lex.type ≠ .invalid →
      ∃ cs, (∀ ch ∈ cs, ch.Valid) ∧ c = charsText cs ++ quotationMark :: r ∧
        lex = lexFrom .string begin r (hasEscapes || cs.any JsonChar.isEscape) := by
  induction turns with
  | zero =>
    intro hasEscapes c lex r h
    cases h
  | succ turns ih =>
    intro hasEscapes c lex r h hvalid
    have refused : ∀ d, invalidFrom begin d = some (lex, r) → False := by
      intro d hd
      obtain ⟨lex', c', hinvalid, htype⟩ := invalidFrom_total begin d
      rw [hinvalid] at hd
      obtain ⟨rfl⟩ := Prod.mk.inj (Option.some.inj hd)
      exact hvalid htype
    -- one character in front of what the rest of the loop has read
    have extend : ∀ (ch : JsonChar) (escape : Bool) (d : Bytes), ch.Valid →
        escape = (hasEscapes || ch.isEscape) → c = ch.text ++ d →
        scanStringLoop begin turns escape d = some (lex, r) →
        ∃ cs, (∀ ch ∈ cs, ch.Valid) ∧ c = charsText cs ++ quotationMark :: r ∧
          lex = lexFrom .string begin r (hasEscapes || cs.any JsonChar.isEscape) := by
      rintro ch escape d hch rfl rfl hloop
      obtain ⟨cs, hcs, rfl, hlex⟩ := ih _ _ _ _ hloop hvalid
      refine ⟨ch :: cs, ?_, by rw [charsText_cons, append_assoc], ?_⟩
      · intro x hx
        rcases mem_cons.mp hx with rfl | hx
        · exact hch
        · exact hcs x hx
      · rw [hlex, any_cons, Bool.or_assoc]
    cases c with
    | nil =>
      obtain ⟨rfl⟩ := Prod.mk.inj (Option.some.inj h)
      exact absurd rfl hvalid
    | cons b c =>
      simp only [scanStringLoop, atEnd_cons, current_cons, Option.bind_eq_bind,
        Option.bind_some, Bool.false_eq_true, if_false] at h
      split at h
      · rename_i hquote
        obtain ⟨rfl, rfl⟩ := Prod.mk.inj (Option.some.inj h)
        exact ⟨[], by simp, by simp [charsText, hquote], by simp⟩
      rename_i hquote
      split at h
      · rename_i hback
        subst hback
        cases c with
        | nil => exact (refused [] h).elim
        | cons e c =>
          simp only [atEnd_cons, current_cons, advance_cons, Option.bind_some, Bool.false_eq_true,
            if_false] at h
          split at h
          · have hvalidShort : (shortEscape e).isSome = true := by rwa [← isEscapable_eq]
            exact extend (.short e) true c hvalidShort (by simp [JsonChar.isEscape]) rfl h
          split at h
          · rename_i hu
            obtain ⟨s, hs⟩ := scanHex_total 4 c
            rw [hs] at h
            cases s with
            | error d => exact (refused d h).elim
            | ok d =>
              obtain ⟨hexes, rfl, hlen, hall⟩ := scanHex_sound hs
              obtain ⟨h₁, h₂, h₃, h₄, rfl⟩ : ∃ h₁ h₂ h₃ h₄, hexes = [h₁, h₂, h₃, h₄] := by
                match hexes, hlen with
                | [h₁, h₂, h₃, h₄], _ => exact ⟨h₁, h₂, h₃, h₄, rfl⟩
              refine extend (.unicode h₁ h₂ h₃ h₄) true d ?_ (by simp [JsonChar.isEscape]) ?_ h
              · exact ⟨hall h₁ (by simp), hall h₂ (by simp), hall h₃ (by simp), hall h₄ (by simp)⟩
              · simp [JsonChar.text, hu]
          · exact (refused (e :: c) h).elim
      rename_i hback
      split at h
      · exact (refused (b :: c) h).elim
      · rename_i hcontrol
        exact extend (.raw b) hasEscapes c ⟨UInt8.not_lt.mp hcontrol, hquote, hback⟩
          (by simp [JsonChar.isEscape]) rfl h

theorem scanStringLoop_complete (begin : Bytes) (r : Bytes) (cs : List JsonChar)
    (hcs : ∀ ch ∈ cs, ch.Valid) :
    ∀ turns hasEscapes, (charsText cs ++ quotationMark :: r).length < turns →
      scanStringLoop begin turns hasEscapes (charsText cs ++ quotationMark :: r) =
        some (lexFrom .string begin r (hasEscapes || cs.any JsonChar.isEscape), r) := by
  induction cs with
  | nil =>
    intro turns hasEscapes h
    obtain ⟨turns, rfl⟩ := Nat.exists_eq_succ_of_ne_zero (Nat.ne_of_gt (Nat.zero_lt_of_lt h))
    simp [charsText, scanStringLoop]
  | cons ch cs ih =>
    intro turns hasEscapes h
    obtain ⟨turns, rfl⟩ := Nat.exists_eq_succ_of_ne_zero (Nat.ne_of_gt (Nat.zero_lt_of_lt h))
    have hvalid := hcs ch (by simp)
    have rest := ih fun x hx => hcs x (by simp [hx])
    rw [charsText_cons] at h ⊢
    cases ch with
    | raw b =>
      obtain ⟨hcontrol, hquote, hback⟩ := hvalid
      have further := rest turns hasEscapes (by simp [JsonChar.text] at h ⊢; omega)
      simp [JsonChar.text, scanStringLoop, hquote, hback, UInt8.not_lt.mpr hcontrol, further,
        JsonChar.isEscape]
    | short e =>
      have further := rest turns true (by simp [JsonChar.text] at h ⊢; omega)
      have hescape : isEscapable e = true := by rw [isEscapable_eq]; exact hvalid
      have hquote : escapeMark ≠ quotationMark := by decide
      simp [JsonChar.text, scanStringLoop, hquote, hescape, further, JsonChar.isEscape]
    | unicode h₁ h₂ h₃ h₄ =>
      obtain ⟨ha, hb, hc, hd⟩ := hvalid
      have further := rest turns true (by simp [JsonChar.text] at h ⊢; omega)
      have hhex := scanHex_complete (r := charsText cs ++ quotationMark :: r) ha hb hc hd
      have hletter : isEscapable letterU = false := by decide
      have hquote : escapeMark ≠ quotationMark := by decide
      simp [JsonChar.text, scanStringLoop, hquote, hletter, hhex, further, JsonChar.isEscape]

/-- `Lexes c lex r`: white space and a token stand in front of `r`. -/
inductive Lexes : Bytes → JsonLex → Bytes → Prop
  | end {w : Bytes} (hw : IsWs w) : Lexes w ⟨.end, [], false⟩ []
  | mark {w r : Bytes} {b : UInt8} {type : JsonLexType} (hw : IsWs w)
      (hb : punctuation b = some type) : Lexes (w ++ b :: r) ⟨type, [b], false⟩ r
  | bool {w r : Bytes} {b : Bool} (hw : IsWs w) (hr : Terminated r) :
      Lexes (w ++ (boolText b ++ r)) ⟨if b then .true else .false, boolText b, false⟩ r
  | null {w r : Bytes} (hw : IsWs w) (hr : Terminated r) :
      Lexes (w ++ (literalNull ++ r)) ⟨.null, literalNull, false⟩ r
  | number {w t r : Bytes} (hw : IsWs w) (ht : IsNumber t) (hr : Terminated r) :
      Lexes (w ++ (t ++ r)) ⟨.number, t, false⟩ r
  | string {w r : Bytes} {cs : List JsonChar} (hw : IsWs w) (hcs : ∀ ch ∈ cs, ch.Valid) :
      Lexes (w ++ (quoted cs ++ r)) ⟨.string, quoted cs, cs.any JsonChar.isEscape⟩ r

theorem next_cons (h : c.dropWhile isWhitespace = b :: r) :
    JsonLexer.next c = scanAt b (b :: r) := by
  simp [JsonLexer.next, skipWhitespace_eq, h]

theorem next_nil (h : c.dropWhile isWhitespace = []) :
    JsonLexer.next c = some (⟨.end, [], false⟩, []) := by
  simp only [JsonLexer.next, skipWhitespace_eq, h]
  rfl

theorem single_cons (type : JsonLexType) (b : UInt8) (r : Bytes) :
    single type (b :: r) = some (⟨type, [b], false⟩, r) := by
  have view := lexFrom_view type [b] r false
  rw [singleton_append] at view
  simp [single, view]

theorem scanString_total (c : Bytes) (b : UInt8) : ∃ p, scanString (b :: c) = some p :=
  scanStringLoop_total (b :: c) _ false c (by simp only [length_cons]; omega)

theorem scanAt_total (b : UInt8) (r : Bytes) : ∃ p, scanAt b (b :: r) = some p := by
  simp only [scanAt]
  split
  · exact ⟨_, single_cons _ b r⟩
  split_ifs
  · exact scanString_total r b
  · exact closeValue_total (scanExpected_total _ _)
  · exact closeValue_total (scanExpected_total _ _)
  · exact closeValue_total (scanExpected_total _ _)
  · exact closeValue_total (scanParts_total _)
  · exact closeValue_total (scanParts_total _)
  · exact ⟨_, single_cons _ b r⟩

/-- The lexer always answers: no read past the end, no endless loop. -/
theorem next_total (c : Bytes) : ∃ lex r, JsonLexer.next c = some (lex, r) := by
  cases h : c.dropWhile isWhitespace with
  | nil => exact ⟨_, _, next_nil h⟩
  | cons b r =>
    obtain ⟨⟨lex, r'⟩, hp⟩ := scanAt_total b r
    exact ⟨lex, r', by rw [next_cons h, hp]⟩

theorem scanString_sound (hb : b = quotationMark) (h : scanString (b :: c) = some (lex, r))
    (hvalid : lex.type ≠ .invalid) :
    ∃ cs, (∀ ch ∈ cs, ch.Valid) ∧ b :: c = quoted cs ++ r ∧
      lex = ⟨.string, quoted cs, cs.any JsonChar.isEscape⟩ := by
  obtain ⟨cs, hcs, rfl, hlex⟩ := scanStringLoop_sound (b :: c) _ false c lex r h hvalid
  have hquoted : b :: (charsText cs ++ quotationMark :: r) = quoted cs ++ r := by
    simp [quoted, hb]
  refine ⟨cs, hcs, hquoted, ?_⟩
  rw [hlex, hquoted, lexFrom_view, Bool.false_or]

theorem scanLiteral_sound {type : JsonLexType} {literal : Bytes}
    (h : scanLiteral type literal c = some (lex, r)) (hvalid : lex.type ≠ .invalid) :
    c = literal ++ r ∧ Terminated r ∧ lex = ⟨type, literal, false⟩ := by
  obtain ⟨hscan, hr, hlex⟩ := closeValue_sound h hvalid
  obtain rfl := scanExpected_sound hscan
  exact ⟨rfl, hr, by rw [hlex, lexFrom_view]⟩

theorem scanNumber_sound (h : scanNumber c = some (lex, r)) (hvalid : lex.type ≠ .invalid) :
    ∃ t, c = t ++ r ∧ IsNumber t ∧ Terminated r ∧ lex = ⟨.number, t, false⟩ := by
  obtain ⟨hscan, hr, hlex⟩ := closeValue_sound h hvalid
  obtain ⟨t, rfl, ht⟩ := scanParts_sound hscan
  exact ⟨t, rfl, ht, hr, by rw [hlex, lexFrom_view]⟩

/-- Every token that is not invalid is one of the grammar. -/
theorem next_sound (h : JsonLexer.next c = some (lex, r)) (hvalid : lex.type ≠ .invalid) :
    Lexes c lex r := by
  obtain ⟨w, hsplit, hw⟩ := dropWhile_split isWhitespace c
  cases hrest : c.dropWhile isWhitespace with
  | nil =>
    rw [next_nil hrest] at h
    obtain ⟨rfl, rfl⟩ := Prod.mk.inj (Option.some.inj h)
    rw [hrest, append_nil] at hsplit
    rw [hsplit]
    exact .end hw
  | cons b d =>
    rw [next_cons hrest] at h
    rw [hrest] at hsplit
    rw [hsplit]
    simp only [scanAt] at h
    split at h
    · rename_i type hmark
      rw [single_cons] at h
      obtain ⟨rfl, rfl⟩ := Prod.mk.inj (Option.some.inj h)
      exact .mark hw hmark
    split_ifs at h with hquote htrue hfalse hnull hminus hdigit
    · obtain ⟨cs, hcs, heq, rfl⟩ := scanString_sound hquote h hvalid
      rw [heq]
      exact .string hw hcs
    · obtain ⟨heq, hr, rfl⟩ := scanLiteral_sound h hvalid
      rw [heq]
      exact .bool (b := true) hw hr
    · obtain ⟨heq, hr, rfl⟩ := scanLiteral_sound h hvalid
      rw [heq]
      exact .bool (b := false) hw hr
    · obtain ⟨heq, hr, rfl⟩ := scanLiteral_sound h hvalid
      rw [heq]
      exact .null hw hr
    · obtain ⟨t, heq, ht, hr, rfl⟩ := scanNumber_sound h hvalid
      rw [heq]
      exact .number hw ht hr
    · obtain ⟨t, heq, ht, hr, rfl⟩ := scanNumber_sound h hvalid
      rw [heq]
      exact .number hw ht hr
    · obtain ⟨rfl⟩ := Prod.mk.inj (Option.some.inj h)
      exact absurd rfl hvalid

theorem next_ws {w b : Bytes} {c : UInt8} (hw : IsWs w) (hc : isWhitespace c = false) :
    JsonLexer.next (w ++ c :: b) = scanAt c (c :: b) := by
  refine next_cons ?_
  rw [dropWhile_append hw, dropWhile_cons_of_neg (by simp [hc])]

theorem isNumber_head {t : Bytes} (h : IsNumber t) :
    ∃ b r, t = b :: r ∧ (b = minus ∨ isDigit b = true) := by
  obtain ⟨sign, int, frac, exp, rfl, hsign, hint, _⟩ := h
  obtain ⟨b, r, rfl, hb⟩ := isInt_head hint
  rcases hsign with rfl | rfl
  · exact ⟨b, _, rfl, Or.inr hb⟩
  · exact ⟨minus, _, rfl, Or.inl rfl⟩

/-- Bytes that begin a number are taken for nothing else. -/
theorem scanAt_number (hb : b = minus ∨ isDigit b = true) (c : Bytes) :
    isWhitespace b = false ∧ scanAt b c = scanNumber c := by
  rcases hb with rfl | hb
  · exact ⟨by decide, rfl⟩
  · have other : ∀ d : UInt8, isDigit d = false → b ≠ d := by
      rintro d hd rfl
      rw [hb] at hd
      cases hd
    refine ⟨?_, ?_⟩
    · simp [isWhitespace, other 32 (by decide), other 9 (by decide), other 10 (by decide),
        other 13 (by decide)]
    · simp [scanAt, punctuation, hb, other beginObject (by decide), other endObject (by decide),
        other beginArray (by decide), other endArray (by decide), other nameSeparator (by decide),
        other valueSeparator (by decide), other quotationMark (by decide), other 116 (by decide),
        other 102 (by decide), other 110 (by decide)]

theorem punctuation_ws {type : JsonLexType} (h : punctuation b = some type) :
    isWhitespace b = false := by
  simp only [punctuation] at h
  split_ifs at h with h₁ h₂ h₃ h₄ h₅ h₆
  all_goals subst b; decide

/-- The lexer reads every token of the grammar. -/
theorem next_complete (h : Lexes c lex r) : JsonLexer.next c = some (lex, r) := by
  cases h with
  | «end» hw =>
    have hdrop := dropWhile_append hw (c := [])
    rw [append_nil] at hdrop
    exact next_nil hdrop
  | mark hw hb =>
    rw [next_ws hw (punctuation_ws hb)]
    simp only [scanAt, hb]
    exact single_cons _ _ _
  | @bool w _ b hw hr =>
    cases b with
    | true =>
      have hlit : JsonLexer.next (w ++ (literalTrue ++ r)) =
          scanLiteral .true literalTrue (literalTrue ++ r) :=
        next_ws hw (by decide)
      exact hlit.trans (closeValue_complete (scanExpected_complete _ r) hr)
    | false =>
      have hlit : JsonLexer.next (w ++ (literalFalse ++ r)) =
          scanLiteral .false literalFalse (literalFalse ++ r) := next_ws hw (by decide)
      exact hlit.trans (closeValue_complete (scanExpected_complete _ r) hr)
  | @null w _ hw hr =>
    have hlit : JsonLexer.next (w ++ (literalNull ++ r)) =
        scanLiteral .null literalNull (literalNull ++ r) :=
      next_ws hw (by decide)
    exact hlit.trans (closeValue_complete (scanExpected_complete _ r) hr)
  | @number w t _ hw ht hr =>
    obtain ⟨b, t', ht', hb⟩ := isNumber_head ht
    have hnumber := scanAt_number hb (t ++ r)
    have hnext : JsonLexer.next (w ++ (t ++ r)) = scanNumber (t ++ r) := by
      rw [← hnumber.2, ht']
      exact next_ws hw hnumber.1
    exact hnext.trans (closeValue_complete (scanParts_complete ht hr.stops) hr)
  | @string w _ cs hw hcs =>
    have hnext : JsonLexer.next (w ++ (quoted cs ++ r)) = scanString (quoted cs ++ r) :=
      next_ws hw (by decide)
    have hloop := scanStringLoop_complete (quoted cs ++ r) r cs hcs
      ((quoted cs ++ r).length + 1) false (by
        simp only [quoted, length_append, length_cons]
        omega)
    have hscan : scanString (quoted cs ++ r) =
        scanStringLoop (quoted cs ++ r) ((quoted cs ++ r).length + 1) false
          (charsText cs ++ quotationMark :: r) := by
      simp [scanString, quoted]
    rw [hnext, hscan, hloop, lexFrom_view, Bool.false_or]

/-- A token other than the end costs at least one byte. -/
theorem Lexes.length_lt (h : Lexes c lex r) (hend : lex.type ≠ .end) : r.length < c.length := by
  cases h with
  | «end» hw => exact absurd rfl hend
  | mark hw hb =>
    simp only [length_append, length_cons]
    omega
  | @bool _ _ b hw hr =>
    cases b <;> simp [boolText, literalTrue, literalFalse] <;> omega
  | null hw hr =>
    simp [literalNull]
    omega
  | number hw ht hr =>
    obtain ⟨b, t', rfl, _⟩ := isNumber_head ht
    simp only [length_append, length_cons]
    omega
  | string hw hcs =>
    simp only [quoted, length_append, length_cons]
    omega

end JobJson
