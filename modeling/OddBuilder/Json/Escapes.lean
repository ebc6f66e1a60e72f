import OddBuilder.Json.Loops

/-!
# Escapes

The ways of writing a character in a string, and which strings the escape kernel
decodes. Characters are Unicode scalar values.
-/

namespace JobJson

open JsonLexer List

variable {cs : List JsonChar} {c : Char} {ch : JsonChar}

/-- `JsonEscapeKernel::decode` with its `result`. -/
def decodeInto (value result : Bytes) : Option (Bool × Bytes) :=
  (decode value).map fun
    | some decoded => (true, decoded)
    | none => (false, result)

/-- Four hexadecimal digits, of either case, for a number. -/
def IsHex4 (digits : Bytes) (u : Nat) : Prop :=
  ∃ a b c d, digits = [a, b, c, d] ∧ (JsonChar.unicode a b c d).Valid ∧ hexQuad a b c d = u

/-- A character raw, by a letter, by its number, or by two surrogates. -/
inductive Spelling (c : Char) : Bytes → Prop where
  | raw (hcontrol : 32 ≤ c.toNat) (hquote : c.toNat ≠ 34) (hback : c.toNat ≠ 92) :
      Spelling c (String.utf8EncodeChar c)
  | short {letter b : UInt8} (hletter : shortEscape letter = some b) (hc : c.toNat = b.toNat) :
      Spelling c [escapeMark, letter]
  | unicode {digits : Bytes} (hdigits : IsHex4 digits c.toNat) :
      Spelling c (escapeMark :: letterU :: digits)
  | pair {high low : Bytes} (hc : 0x10000 ≤ c.toNat)
      (hhigh : IsHex4 high (0xD800 + (c.toNat - 0x10000) / 0x400))
      (hlow : IsHex4 low (0xDC00 + (c.toNat - 0x10000) % 0x400)) :
      Spelling c (escapeMark :: letterU :: high ++ escapeMark :: letterU :: low)

/-- A text in which every character is written in one of these ways. -/
inductive Spells : List Char → Bytes → Prop where
  | nil : Spells [] []
  | cons {c : Char} {chars : List Char} {first text : Bytes} (hc : Spelling c first)
      (hchars : Spells chars text) : Spells (c :: chars) (first ++ text)

/-- A high surrogate without a low one behind it, or a low one without a high one in front. -/
inductive LoneSurrogate (cs : List JsonChar) : Prop where
  | high {front back : List JsonChar} {a b c d : UInt8}
      (hcs : cs = front ++ .unicode a b c d :: back)
      (hhigh : isHighSurrogate (hexQuad a b c d) = true)
      (hback : ∀ e f g h rest, back = .unicode e f g h :: rest →
        isLowSurrogate (hexQuad e f g h) = false)
  | low {front back : List JsonChar} {a b c d : UInt8}
      (hcs : cs = front ++ .unicode a b c d :: back)
      (hlow : isLowSurrogate (hexQuad a b c d) = true)
      (hfront : ∀ e f g h rest, front = rest ++ [.unicode e f g h] →
        isHighSurrogate (hexQuad e f g h) = false)

theorem utf8_toNat (c : Char) : utf8 c.toNat = String.utf8EncodeChar c := by
  have hmax : c.toNat < 0x110000 := by
    rcases c.valid with h | h
    · exact Nat.lt_trans h (by decide)
    · exact h.2
  simp only [utf8, String.utf8EncodeChar, Char.toNat] at hmax ⊢
  split_ifs
  · rfl
  · have h : c.val.toNat / 64 % 0x20 = c.val.toNat / 64 := by omega
    rw [h, Nat.add_comm 0xC0, Nat.add_comm 0x80]
  · have h : c.val.toNat / 4096 % 0x10 = c.val.toNat / 4096 := by omega
    rw [h, Nat.add_comm 0xE0, Nat.add_comm 0x80, Nat.add_comm 0x80]
  · have h : c.val.toNat / 262144 % 0x08 = c.val.toNat / 262144 := by omega
    rw [h, Nat.add_comm 0xF0, Nat.add_comm 0x80, Nat.add_comm 0x80, Nat.add_comm 0x80]

/-- No scalar value is a surrogate. -/
theorem not_surrogate_toNat (c : Char) :
    isHighSurrogate c.toNat = false ∧ isLowSurrogate c.toNat = false := by
  have hvalid := c.valid
  simp only [isHighSurrogate, isLowSurrogate, Char.toNat, Bool.and_eq_false_iff,
    decide_eq_false_iff_not]
  omega

theorem raw_valid (hcontrol : 32 ≤ c.toNat) (hquote : c.toNat ≠ 34) (hback : c.toNat ≠ 92) :
    ∀ b ∈ String.utf8EncodeChar c, (JsonChar.raw b).Valid := by
  have hvalid : ∀ n : Nat, 32 ≤ n % 256 → n % 256 ≠ 34 → n % 256 ≠ 92 →
      (JsonChar.raw (UInt8.ofNat n)).Valid := by
    intro n h₁ h₂ h₃
    simp only [JsonChar.Valid, ne_eq, ← UInt8.toNat_inj]
    exact ⟨h₁, h₂, h₃⟩
  intro b hb
  rw [← utf8_toNat, utf8] at hb
  have hmax : c.toNat < 0x110000 := by
    rcases c.valid with h | h
    · exact Nat.lt_trans h (by decide)
    · exact h.2
  split_ifs at hb <;>
    simp only [mem_cons, not_mem_nil, or_false] at hb <;>
    rcases hb with rfl | rfl | rfl | rfl <;> exact hvalid _ (by omega) (by omega) (by omega)

theorem charsText_raw (text : Bytes) : charsText (text.map .raw) = text := by
  induction text with
  | nil => rfl
  | cons b text ih => rw [map_cons, charsText_cons, ih]; rfl

theorem decodedText_raws (text : Bytes) (cs : List JsonChar) :
    decodedText (text.map .raw ++ cs) = (decodedText cs).map (text ++ ·) := by
  induction text with
  | nil => simp
  | cons b text ih =>
    rw [map_cons, cons_append, decodedText, ih, Option.map_map]
    rfl

theorem combineSurrogates_eq {high low q r : Nat} (hhigh : high - 0xD800 = q)
    (hlow : low - 0xDC00 = r) : combineSurrogates high low = 0x10000 + q * 0x400 + r := by
  have hsum : combineSurrogates high low = 0x10000 + (high - 0xD800) * 0x400 + (low - 0xDC00) := rfl
  rw [hsum, hhigh, hlow]

theorem combineSurrogates_toNat (hc : 0x10000 ≤ c.toNat) :
    combineSurrogates (0xD800 + (c.toNat - 0x10000) / 0x400) (0xDC00 + (c.toNat - 0x10000) % 0x400) =
      c.toNat := by
  have hsum : 0x10000 + (c.toNat - 0x10000) / 0x400 * 0x400 + (c.toNat - 0x10000) % 0x400 =
      c.toNat := by omega
  exact (combineSurrogates_eq (Nat.add_sub_cancel_left _ _) (Nat.add_sub_cancel_left _ _)).trans hsum

theorem surrogates_toNat (hc : 0x10000 ≤ c.toNat) :
    isHighSurrogate (0xD800 + (c.toNat - 0x10000) / 0x400) = true ∧
      isLowSurrogate (0xDC00 + (c.toNat - 0x10000) % 0x400) = true := by
  have hvalid := c.valid
  simp only [isHighSurrogate, isLowSurrogate, Char.toNat, Bool.and_eq_true, decide_eq_true_eq]
  omega

/-- Whatever the way, the grammar reads the character's bytes. -/
theorem Spelling.decoded {text : Bytes} (h : Spelling c text) :
    ∃ cs, (∀ ch ∈ cs, ch.Valid) ∧ charsText cs = text ∧
      ∀ rest, decodedText (cs ++ rest) = (decodedText rest).map (String.utf8EncodeChar c ++ ·) := by
  cases h with
  | raw hcontrol hquote hback =>
    refine ⟨(String.utf8EncodeChar c).map .raw, ?_, charsText_raw _, decodedText_raws _⟩
    intro ch hch
    obtain ⟨b, hb, rfl⟩ := mem_map.1 hch
    exact raw_valid hcontrol hquote hback b hb
  | @short letter b hletter hc =>
    have hascii : String.utf8EncodeChar c = [b] := by
      have hle : b.toNat ≤ 0x7F := by
        simp only [shortEscape] at hletter
        split_ifs at hletter <;> cases hletter <;> decide
      rw [← utf8_toNat, hc, utf8, if_pos hle, UInt8.ofNat_toNat]
    refine ⟨[.short letter], ?_, rfl, fun rest => ?_⟩
    · intro ch hch
      cases mem_singleton.1 hch
      exact Option.isSome_of_eq_some hletter
    · rw [singleton_append, decodedText, hletter, hascii]
      rfl
  | unicode hdigits =>
    obtain ⟨a, b, d, e, rfl, hvalid, hquad⟩ := hdigits
    obtain ⟨hhigh, hlow⟩ := not_surrogate_toNat c
    refine ⟨[.unicode a b d e], ?_, rfl, fun rest => ?_⟩
    · intro ch hch
      cases mem_singleton.1 hch
      exact hvalid
    · rw [singleton_append, decodedText_single rest (hquad ▸ hhigh), hquad,
        if_neg (ne_true_of_eq_false hlow), utf8_toNat]
  | pair hc hhigh hlow =>
    obtain ⟨a, b, d, e, rfl, hvalid, hquad⟩ := hhigh
    obtain ⟨a', b', d', e', rfl, hvalid', hquad'⟩ := hlow
    obtain ⟨hhigh, hlow⟩ := surrogates_toNat hc
    refine ⟨[.unicode a b d e, .unicode a' b' d' e'], ?_, rfl, fun rest => ?_⟩
    · intro ch hch
      rcases mem_cons.1 hch with rfl | hch
      · exact hvalid
      · cases mem_singleton.1 hch
        exact hvalid'
    · rw [cons_append, singleton_append,
        decodedText_pair rest (hquad ▸ hhigh) (hquad' ▸ hlow), hquad, hquad',
        combineSurrogates_toNat hc, utf8_toNat]

theorem Spells.decoded {chars : List Char} {text : Bytes} (h : Spells chars text) :
    ∃ cs, (∀ ch ∈ cs, ch.Valid) ∧ charsText cs = text ∧
      decodedText cs = some (chars.flatMap String.utf8EncodeChar) := by
  induction h with
  | nil => exact ⟨[], fun _ hch => absurd hch not_mem_nil, rfl, rfl⟩
  | @cons c chars first text hc _ ih =>
    obtain ⟨front, hfront, hfirst, hread⟩ := hc.decoded
    obtain ⟨cs, hcs, htext, hrest⟩ := ih
    refine ⟨front ++ cs, ?_, ?_, ?_⟩
    · intro ch hch
      rcases mem_append.1 hch with hch | hch
      · exact hfront ch hch
      · exact hcs ch hch
    · rw [charsText, flatMap_append]
      exact congrArg₂ (· ++ ·) hfirst htext
    · rw [hread, hrest]
      rfl

theorem LoneSurrogate.cons (h : LoneSurrogate cs)
    (hch : ∀ a b c d, ch = .unicode a b c d → isHighSurrogate (hexQuad a b c d) = false) :
    LoneSurrogate (ch :: cs) := by
  cases h with
  | @high front back a b c d hcs hhigh hback =>
    have hcons : ch :: cs = (ch :: front) ++ .unicode a b c d :: back := by rw [hcs]; rfl
    exact .high hcons hhigh hback
  | @low front back a b c d hcs hlow hfront =>
    have hcons : ch :: cs = (ch :: front) ++ .unicode a b c d :: back := by rw [hcs]; rfl
    refine .low hcons hlow fun e f g h rest heq => ?_
    cases rest with
    | nil => exact hch e f g h (List.cons.inj heq).1
    | cons _ rest => exact hfront e f g h rest (List.cons.inj heq).2

/-- A first character that is no surrogate makes no difference. -/
theorem LoneSurrogate.of_cons (h : LoneSurrogate (ch :: cs))
    (hch : ∀ a b c d, ch = .unicode a b c d →
      isHighSurrogate (hexQuad a b c d) = false ∧ isLowSurrogate (hexQuad a b c d) = false) :
    LoneSurrogate cs := by
  cases h with
  | @high front back a b c d hcs hhigh hback =>
    cases front with
    | nil => exact absurd hhigh (by rw [(hch a b c d (List.cons.inj hcs).1).1]; decide)
    | cons _ front => exact .high (List.cons.inj hcs).2 hhigh hback
  | @low front back a b c d hcs hlow hfront =>
    cases front with
    | nil => exact absurd hlow (by rw [(hch a b c d (List.cons.inj hcs).1).2]; decide)
    | cons x front =>
      refine .low (List.cons.inj hcs).2 hlow fun e f g h rest heq => ?_
      exact hfront e f g h (x :: rest) (by rw [heq]; rfl)

theorem loneSurrogate_cons_iff (hch : ∀ a b c d, ch = .unicode a b c d →
      isHighSurrogate (hexQuad a b c d) = false ∧ isLowSurrogate (hexQuad a b c d) = false) :
    LoneSurrogate (ch :: cs) ↔ LoneSurrogate cs :=
  ⟨fun h => h.of_cons hch, fun h => h.cons fun a b c d heq => (hch a b c d heq).1⟩

theorem not_high_of_low {u : Nat} (h : isLowSurrogate u = true) : isHighSurrogate u = false := by
  simp only [isLowSurrogate, isHighSurrogate, Bool.and_eq_true, Bool.and_eq_false_iff,
    decide_eq_true_eq, decide_eq_false_iff_not] at h ⊢
  omega

/-- A pair makes no difference to what stands behind it. -/
theorem loneSurrogate_pair_iff {a b c d e f g h : UInt8}
    (hhigh : isHighSurrogate (hexQuad a b c d) = true)
    (hlow : isLowSurrogate (hexQuad e f g h) = true) :
    LoneSurrogate (.unicode a b c d :: .unicode e f g h :: cs) ↔ LoneSurrogate cs := by
  constructor
  · intro hlone
    cases hlone with
    | @high front back a' b' c' d' hcs hhigh' hback =>
      match front, hcs with
      | [], hcs =>
        obtain ⟨-, rfl⟩ := List.cons.inj hcs
        exact absurd hlow (by rw [hback e f g h cs rfl]; decide)
      | [_], hcs =>
        obtain ⟨heq⟩ := List.cons.inj (List.cons.inj hcs).2
        cases heq
        exact absurd hhigh' (by rw [not_high_of_low hlow]; decide)
      | _ :: _ :: front, hcs => exact .high (List.cons.inj (List.cons.inj hcs).2).2 hhigh' hback
    | @low front back a' b' c' d' hcs hlow' hfront =>
      match front, hcs, hfront with
      | [], hcs, _ =>
        cases (List.cons.inj hcs).1
        exact absurd hhigh (by rw [not_high_of_low hlow']; decide)
      | [x], hcs, hfront =>
        cases (List.cons.inj hcs).1
        exact absurd hhigh (by rw [hfront a b c d [] rfl]; decide)
      | x :: y :: front, hcs, hfront =>
        refine .low (List.cons.inj (List.cons.inj hcs).2).2 hlow' fun e' f' g' h' rest heq => ?_
        exact hfront e' f' g' h' (x :: y :: rest) (by rw [heq]; rfl)
  · intro hlone
    cases hlone with
    | @high front back a' b' c' d' hcs hhigh' hback =>
      have hcons : JsonChar.unicode a b c d :: .unicode e f g h :: cs =
          (.unicode a b c d :: .unicode e f g h :: front) ++ .unicode a' b' c' d' :: back := by
        rw [hcs]
        rfl
      exact .high hcons hhigh' hback
    | @low front back a' b' c' d' hcs hlow' hfront =>
      have hcons : JsonChar.unicode a b c d :: .unicode e f g h :: cs =
          (.unicode a b c d :: .unicode e f g h :: front) ++ .unicode a' b' c' d' :: back := by
        rw [hcs]
        rfl
      refine .low hcons hlow' fun e' f' g' h' rest heq => ?_
      match rest, heq with
      | [_], heq =>
        cases (List.cons.inj (List.cons.inj heq).2).1
        exact not_high_of_low hlow
      | _ :: _ :: rest, heq =>
        exact hfront e' f' g' h' rest (List.cons.inj (List.cons.inj heq).2).2

/-- The grammar refuses exactly the rows with a lone surrogate. -/
theorem decodedText_eq_none_iff (cs : List JsonChar) :
    decodedText cs = none ↔ LoneSurrogate cs := by
  induction cs using decodedText.induct with
  | case1 =>
    refine ⟨fun h => absurd h (Option.some_ne_none _), fun h => ?_⟩
    cases h with
    | high hcs _ _ => exact absurd hcs (by simp)
    | low hcs _ _ => exact absurd hcs (by simp)
  | case2 c cs ih =>
    rw [decodedText, Option.map_eq_none_iff, ih]
    exact (loneSurrogate_cons_iff fun _ _ _ _ heq => by cases heq).symm
  | case3 c cs ih =>
    rw [decodedText, Option.map_eq_none_iff, ih]
    exact (loneSurrogate_cons_iff fun _ _ _ _ heq => by cases heq).symm
  | case4 a b c d hhigh e f g h cs hlow ih =>
    rw [decodedText_pair cs hhigh hlow, Option.map_eq_none_iff, ih, loneSurrogate_pair_iff hhigh hlow]
  | case5 a b c d hhigh e f g h cs hlow =>
    refine ⟨fun _ => ?_, fun _ => by simp [decodedText, hhigh, hlow]⟩
    refine .high (nil_append _).symm hhigh fun e' f' g' h' rest heq => ?_
    cases (List.cons.inj heq).1
    exact eq_false_of_ne_true hlow
  | case6 a b c d cs hhigh hother =>
    refine ⟨fun _ => ?_, fun _ => by rw [decodedText.eq_def]; simp [hhigh]⟩
    refine .high (nil_append _).symm hhigh fun e f g h rest heq => ?_
    exact (hother e f g h rest heq).elim
  | case7 a b c d cs hhigh hlow =>
    refine ⟨fun _ => ?_, fun _ => ?_⟩
    · refine .low (nil_append _).symm hlow fun e f g h rest heq => ?_
      exact absurd heq.symm (append_ne_nil_of_right_ne_nil _ (cons_ne_nil _ _))
    · rw [decodedText_single cs (eq_false_of_ne_true hhigh), if_pos hlow]
  | case8 a b c d cs hhigh hlow ih =>
    rw [decodedText_single cs (eq_false_of_ne_true hhigh), if_neg hlow, Option.map_eq_none_iff, ih]
    refine (loneSurrogate_cons_iff fun _ _ _ _ heq => ?_).symm
    cases heq
    exact ⟨eq_false_of_ne_true hhigh, eq_false_of_ne_true hlow⟩

theorem decodeInto_charsText (hcs : ∀ ch ∈ cs, ch.Valid) (result : Bytes) :
    decodeInto (charsText cs) result =
      some ((decodedText cs).isSome, (decodedText cs).getD result) := by
  rw [decodeInto, decode_eq hcs]
  cases decodedText cs <;> rfl

/-- An escape of a lone surrogate somewhere in the content of a string. -/
def HasLoneSurrogate (text : Bytes) : Prop :=
  ∃ cs, (∀ ch ∈ cs, JsonChar.Valid ch) ∧ charsText cs = text ∧ LoneSurrogate cs

/-- Spelled characters are lexed as they stand and decoded to their UTF-8; a lexed string is
refused, and `result` left alone, exactly for a lone surrogate. -/
theorem escapes_decoded :
    (∀ chars text, Spells chars text → ∀ rest, ∃ lex,
      JsonLexer.next (quotationMark :: (text ++ quotationMark :: rest)) = some (lex, rest) ∧
        lex.type = .string ∧ content lex = text ∧
        ∀ result, decodeInto (content lex) result =
          some (true, chars.flatMap String.utf8EncodeChar)) ∧
      ∀ source lex rest, JsonLexer.next source = some (lex, rest) → lex.type = .string →
        (HasLoneSurrogate (content lex) ∧
          ∀ result, decodeInto (content lex) result = some (false, result)) ∨
        (¬ HasLoneSurrogate (content lex) ∧
          ∃ decoded, ∀ result, decodeInto (content lex) result = some (true, decoded)) := by
  constructor
  · intro chars text h rest
    obtain ⟨cs, hcs, rfl, hdecoded⟩ := h.decoded
    refine ⟨⟨.string, quoted cs, cs.any JsonChar.isEscape⟩, ?_, rfl, content_quoted cs _ _, ?_⟩
    · have hws : IsWs [] := fun _ hc => absurd hc not_mem_nil
      have hlex := next_complete (Lexes.string (r := rest) hws hcs)
      rwa [nil_append, quoted, cons_append, append_assoc, singleton_append]
        at hlex
    · intro result
      rw [content_quoted, decodeInto_charsText hcs, hdecoded]
      rfl
  · intro source lex rest hnext hstring
    obtain ⟨_, cs, _, hcs, _, rfl⟩ := next_string hnext hstring
    rw [content_quoted]
    have hlone : HasLoneSurrogate (charsText cs) ↔ decodedText cs = none := by
      constructor
      · rintro ⟨cs', hcs', htext, h⟩
        have hsame := decode_eq hcs'
        rw [htext, decode_eq hcs] at hsame
        exact (Option.some.inj hsame).trans ((decodedText_eq_none_iff cs').2 h)
      · exact fun h => ⟨cs, hcs, rfl, (decodedText_eq_none_iff cs).1 h⟩
    cases hdecoded : decodedText cs with
    | none =>
      refine .inl ⟨hlone.2 hdecoded, fun result => ?_⟩
      rw [decodeInto_charsText hcs, hdecoded]
      rfl
    | some decoded =>
      refine .inr ⟨fun h => ?_, decoded, fun result => ?_⟩
      · exact Option.some_ne_none _ (hdecoded.symm.trans (hlone.1 h))
      · rw [decodeInto_charsText hcs, hdecoded]
        rfl

/-- One character outside the basic plane, with digits of either case. -/
example : decodeInto [92, 117, 68, 56, 51, 100, 92, 117, 100, 69, 48, 48] [] =
    some (true, [0xF0, 0x9F, 0x98, 0x80]) := by decide

end JobJson
