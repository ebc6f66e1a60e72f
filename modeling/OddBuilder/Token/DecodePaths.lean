import OddBuilder.Token.Decoding

/-!
# The two decode paths

What the runtime decodes through the symbols of the tokens, beside what the
algorithms decode, and what one token can do to the text of the others.
-/

namespace JobTokenizer

open List ByteFallback Gpt2ByteEncoder

namespace JobToken

variable {job : JobToken} {tokens : List TokenId}

theorem decodeSymbols_append (job : JobToken) (a b : List TokenId) :
    job.decodeSymbols (a ++ b) = job.decodeSymbols a ++ job.decodeSymbols b := by
  simp [decodeSymbols]

theorem decodeSymbols_ne_nil {symbol : Text} (h : symbol ∈ job.decodeSymbols tokens) :
    symbol ≠ [] := by
  have hkept := (mem_filter.mp h).2
  rintro rfl
  cases hkept

theorem decodeSymbols_flatten (job : JobToken) (tokens : List TokenId) :
    (job.decodeSymbols tokens).flatten = tokens.flatMap job.token.vocab.tokenText := by
  induction tokens with
  | nil => rfl
  | cons id tokens ih =>
    rw [flatMap_cons, ← ih]
    simp only [decodeSymbols, map_cons, filter_cons]
    split
    · rfl
    · rename_i hempty
      have hnil : job.token.vocab.tokenText id = [] := by simpa using hempty
      rw [hnil]
      rfl

/-- The encoder is asked for no symbols too: it answers the empty text by itself. -/
theorem decode_symbols (job : JobToken) (tokens : List TokenId) :
    job.decode tokens =
      match job.token.byteEncoding with
      | .Raw => (job.decodeSymbols tokens).flatten
      | .Gpt2 => Gpt2ByteEncoder.decode (job.decodeSymbols tokens) := by
  unfold decode
  split
  · rename_i hempty
    rw [isEmpty_iff.mp hempty]
    cases job.token.byteEncoding <;> rfl
  · dsimp only
    split
    · rename_i hempty
      rw [isEmpty_iff.mp hempty]
      cases job.token.byteEncoding <;> rfl
    · rfl

theorem decode_raw (raw : job.token.byteEncoding = .Raw) (tokens : List TokenId) :
    job.decode tokens = tokens.flatMap job.token.vocab.tokenText := by
  rw [decode_symbols, raw]
  exact decodeSymbols_flatten job tokens

/-- A piece is its own text, or it has a text that is shorter. -/
theorem pieceText_eq_or_lt (algo : ITokenAlgo) (piece : Text) :
    pieceText algo.strip piece = piece ∧
        isByteToken piece = false ∧ algo.isContinuation piece = false ∨
      (pieceText algo.strip piece).length < piece.length ∧
        ¬ (isByteToken piece = false ∧ algo.isContinuation piece = false) := by
  cases hbyte : isByteToken piece with
  | true =>
    obtain ⟨byte, hparse⟩ := parseByteToken_eq_some hbyte
    refine Or.inr ⟨?_, by simp⟩
    simp only [pieceText, hparse, length_singleton, isByteToken_length hbyte]
    omega
  | false =>
    have hpiece : pieceText algo.strip piece = algo.strip piece := by
      simp [pieceText, parseByteToken_eq_none hbyte]
    rw [hpiece]
    rcases algo.strip_eq piece with ⟨heq, hmark⟩ | ⟨hlt, hmark⟩
    · exact Or.inl ⟨heq, rfl, hmark⟩
    · exact Or.inr ⟨hlt, by simp [hmark]⟩

/-- Texts of which each is replaced by itself or by a shorter one have the same concatenation only
if none is replaced. -/
theorem flatMap_eq_iff {α β : Type} {f g : α → List β} {xs : List α}
    (h : ∀ x ∈ xs, g x = f x ∨ (g x).length < (f x).length) :
    xs.flatMap f = xs.flatMap g ↔ ∀ x ∈ xs, g x = f x := by
  constructor
  · intro heq
    induction xs with
    | nil => exact fun x hx => nomatch hx
    | cons x xs ih =>
      have hrest : ∀ y ∈ xs, g y = f y ∨ (g y).length < (f y).length :=
        fun y hy => h y (mem_cons_of_mem x hy)
      have hshorter : ∀ ys : List α, (∀ y ∈ ys, g y = f y ∨ (g y).length < (f y).length) →
          (ys.flatMap g).length ≤ (ys.flatMap f).length := by
        intro ys hys
        induction ys with
        | nil => exact Nat.le_refl _
        | cons y ys ih =>
          have hy : (g y).length ≤ (f y).length := by
            rcases hys y (mem_cons_self ..) with hy | hy
            · rw [hy]
            · exact Nat.le_of_lt hy
          have htail := ih fun z hz => hys z (mem_cons_of_mem y hz)
          simp only [flatMap_cons, length_append]
          omega
      rw [flatMap_cons, flatMap_cons] at heq
      have hx : g x = f x := by
        rcases h x (mem_cons_self ..) with hx | hx
        · exact hx
        · have hlength := congrArg List.length heq
          have htail := hshorter xs hrest
          simp only [length_append] at hlength
          omega
      rw [hx] at heq
      intro y hy
      rcases mem_cons.mp hy with rfl | hy
      · exact hx
      · exact ih hrest (append_cancel_left heq) y hy
  · intro hall
    induction xs with
    | nil => rfl
    | cons x xs ih =>
      rw [flatMap_cons, flatMap_cons, hall x (mem_cons_self ..),
        ih (fun y hy => h y (mem_cons_of_mem x hy)) fun y hy => hall y (mem_cons_of_mem x hy)]

/-- With raw bytes the runtime and the algorithm decode the same exactly if no token is spelled as
a byte and none begins with the marker of a continuation. -/
theorem decode_paths_iff {job : JobToken} (raw : job.token.byteEncoding = .Raw) (algo : ITokenAlgo)
    (tokens : List TokenId) {capacity : Nat}
    (room : (algo.text (some job.token.vocab) tokens).length ≤ capacity) :
    job.decode tokens = algo.decode (some job.token.vocab) tokens capacity ↔
      ∀ id ∈ tokens, isByteToken (job.token.vocab.tokenText id) = false ∧
        algo.isContinuation (job.token.vocab.tokenText id) = false := by
  have hpieces : ∀ id ∈ tokens,
      pieceText algo.strip (job.token.vocab.tokenText id) = job.token.vocab.tokenText id ∨
        (pieceText algo.strip (job.token.vocab.tokenText id)).length <
          (job.token.vocab.tokenText id).length := by
    intro id _
    rcases pieceText_eq_or_lt algo (job.token.vocab.tokenText id) with ⟨heq, -⟩ | ⟨hlt, -⟩
    · exact Or.inl heq
    · exact Or.inr hlt
  rw [decode_raw raw, ITokenAlgo.decode_take, take_of_length_le room, ITokenAlgo.text_some,
    flatMap_eq_iff hpieces]
  constructor
  · intro hall id hid
    rcases pieceText_eq_or_lt algo (job.token.vocab.tokenText id) with ⟨-, hplain⟩ | ⟨hlt, -⟩
    · exact hplain
    · rw [hall id hid] at hlt
      exact absurd hlt (Nat.lt_irrefl _)
  · intro hall id hid
    rcases pieceText_eq_or_lt algo (job.token.vocab.tokenText id) with ⟨heq, -⟩ | ⟨-, hnot⟩
    · exact heq
    · exact absurd (hall id hid) hnot

/-- A word, a continuation and a byte. -/
def pathsToken (tokenType : TokenType) : IToken where
  tokenType := tokenType
  vocab := ({} : Vocab).addTokens [[112, 108, 97, 121], [35, 35, 105, 110, 103],
    [60, 48, 120, 52, 49, 62]]

/-- What the runtime makes of it. -/
def pathsJob (tokenType : TokenType) (algorithm : Algorithm) : JobToken where
  token := pathsToken tokenType
  splitter := ⟨none⟩
  algorithm := algorithm

theorem decode_paths_sample :
    (pathsJob .WordPiece (.other .WordPiece)).decode [0] =
        (ITokenAlgo.wordpiece [35, 35]).decode
          (some (pathsJob .WordPiece (.other .WordPiece)).token.vocab) [0] 4 ↔
      ∀ id ∈ ([0] : List TokenId),
        isByteToken
            ((pathsJob .WordPiece (.other .WordPiece)).token.vocab.tokenText id) = false ∧
          (ITokenAlgo.wordpiece [35, 35]).isContinuation
            ((pathsJob .WordPiece (.other .WordPiece)).token.vocab.tokenText id) = false :=
  decode_paths_iff rfl (.wordpiece [35, 35]) [0] (by decide)

/-- The runtime keeps a marker and a spelling that the algorithms resolve. -/
theorem decode_paths_differ :
    configure noRegex (pathsToken .WordPiece) = some (pathsJob .WordPiece (.other .WordPiece)) ∧
      (pathsJob .WordPiece (.other .WordPiece)).decode [0, 1] =
        [112, 108, 97, 121, 35, 35, 105, 110, 103] ∧
      (ITokenAlgo.wordpiece [35, 35]).decode (some (pathsToken .WordPiece).vocab) [0, 1] 64 =
        [112, 108, 97, 121, 105, 110, 103] ∧
    configure noRegex (pathsToken .Unigram) = some (pathsJob .Unigram (.other .Unigram)) ∧
      (pathsJob .Unigram (.other .Unigram)).decode [2] = [60, 48, 120, 52, 49, 62] ∧
      ITokenAlgo.unigram.decode (some (pathsToken .Unigram).vocab) [2] 64 = [65] := by
  refine ⟨rfl, ?_, ?_, rfl, ?_, ?_⟩ <;> decide

/-- The byte encoder has a byte for every code point in the texts of the tokens. -/
def Readable (job : JobToken) (tokens : List TokenId) : Prop :=
  ∀ symbol ∈ job.decodeSymbols tokens, Gpt2ByteEncoder.decodeSymbol symbol.length symbol ≠ none

theorem decodeSymbol_ne_nil {turns : Nat} {symbol bytes : Text} (hne : symbol ≠ [])
    (h : decodeSymbol turns symbol = some bytes) : bytes ≠ [] := by
  cases symbol with
  | nil => exact absurd rfl hne
  | cons first symbol =>
    cases turns with
    | zero => cases h
    | succ turns =>
      obtain ⟨codePoint, -, h⟩ := Option.bind_eq_some_iff.mp h
      obtain ⟨entry, -, h⟩ := Option.bind_eq_some_iff.mp h
      obtain ⟨byte, -, h⟩ := Option.bind_eq_some_iff.mp h
      obtain ⟨output, -, h⟩ := Option.bind_eq_some_iff.mp h
      obtain rfl := Option.some.inj h
      exact cons_ne_nil _ _

theorem mapM_eq_none_iff {α β : Type} {f : α → Option β} {xs : List α} :
    xs.mapM f = none ↔ ∃ x ∈ xs, f x = none := by
  induction xs with
  | nil => simp
  | cons x xs ih =>
    cases hx : f x with
    | none => simp [hx]
    | some y =>
      cases hxs : xs.mapM f with
      | none => simpa [hx, hxs] using ih.mp hxs
      | some ys =>
        have hnot : ¬ ∃ x ∈ xs, f x = none := by
          rw [← ih, hxs]
          exact Option.some_ne_none ys
        simpa [hx, hxs] using hnot

/-- One symbol that cannot be read empties the whole text. -/
theorem decode_unreadable (gpt2 : job.token.byteEncoding = .Gpt2) (h : ¬ job.Readable tokens) :
    job.decode tokens = [] := by
  have hbad : ∃ symbol ∈ job.decodeSymbols tokens,
      decodeSymbol symbol.length symbol = none := by
    simpa [Readable] using h
  rw [decode_symbols, gpt2]
  rw [Gpt2ByteEncoder.decode, mapM_eq_none_iff.mpr hbad]
  rfl

theorem decode_readable (gpt2 : job.token.byteEncoding = .Gpt2) (h : job.Readable tokens) :
    ∃ pieces, (job.decodeSymbols tokens).mapM
        (fun symbol => decodeSymbol symbol.length symbol) = some pieces ∧
      job.decode tokens = pieces.flatten := by
  have hsome : (job.decodeSymbols tokens).mapM
      (fun symbol => decodeSymbol symbol.length symbol) ≠ none := by
    rw [ne_eq, mapM_eq_none_iff]
    rintro ⟨symbol, hsymbol, hnone⟩
    exact h symbol hsymbol hnone
  obtain ⟨pieces, hpieces⟩ := Option.ne_none_iff_exists'.mp hsome
  refine ⟨pieces, hpieces, ?_⟩
  rw [decode_symbols, gpt2]
  rw [Gpt2ByteEncoder.decode, hpieces]
  rfl

/-- Tokens that can be read and have a symbol have a text. -/
theorem decode_eq_nil_iff (gpt2 : job.token.byteEncoding = .Gpt2) (h : job.Readable tokens) :
    job.decode tokens = [] ↔ job.decodeSymbols tokens = [] := by
  constructor
  · intro hnil
    obtain ⟨pieces, hpieces, hdecode⟩ := decode_readable gpt2 h
    rw [hnil] at hdecode
    cases hsymbols : job.decodeSymbols tokens with
    | nil => rfl
    | cons symbol symbols =>
      rw [hsymbols, mapM_cons] at hpieces
      obtain ⟨piece, hpiece, hpieces⟩ := Option.bind_eq_some_iff.mp hpieces
      obtain ⟨rest, -, hrest⟩ := Option.bind_eq_some_iff.mp hpieces
      obtain rfl := Option.some.inj hrest
      have hne : symbol ≠ [] := decodeSymbols_ne_nil (hsymbols ▸ mem_cons_self ..)
      exact absurd (append_eq_nil_iff.mp hdecode.symm).1 (decodeSymbol_ne_nil hne hpiece)
  · intro hnil
    rw [decode_symbols, hnil, gpt2]
    rfl

theorem readable_append (job : JobToken) (a b : List TokenId) :
    job.Readable (a ++ b) ↔ job.Readable a ∧ job.Readable b := by
  simp [Readable, decodeSymbols_append, or_imp, forall_and]

theorem readable_of_nil (h : job.decodeSymbols tokens = []) : job.Readable tokens := by
  intro symbol hsymbol
  rw [h] at hsymbol
  cases hsymbol

theorem decode_append_readable (gpt2 : job.token.byteEncoding = .Gpt2) {a b : List TokenId}
    (ha : job.Readable a) (hb : job.Readable b) :
    job.decode (a ++ b) = job.decode a ++ job.decode b := by
  obtain ⟨pieces, hpieces, hdecode⟩ := decode_readable gpt2 ha
  obtain ⟨pieces', hpieces', hdecode'⟩ := decode_readable gpt2 hb
  obtain ⟨both, hboth, hdecodeBoth⟩ := decode_readable gpt2 ((readable_append job a b).mpr ⟨ha, hb⟩)
  rw [decodeSymbols_append, mapM_append, hpieces, hpieces'] at hboth
  obtain rfl := Option.some.inj hboth
  rw [hdecodeBoth, hdecode, hdecode', flatten_append]

/-- The text of two lists of tokens is that of the one and of the other exactly with raw bytes, or
if both can be read or neither, or if one of them has no text at all. -/
theorem decode_append_iff (job : JobToken) (a b : List TokenId) :
    job.decode (a ++ b) = job.decode a ++ job.decode b ↔
      job.token.byteEncoding = .Raw ∨ (job.Readable a ↔ job.Readable b) ∨
        job.decodeSymbols a = [] ∨ job.decodeSymbols b = [] := by
  cases hencoding : job.token.byteEncoding with
  | Raw =>
    simp only [decode_raw hencoding, flatMap_append, true_or]
  | Gpt2 =>
    simp only [reduceCtorEq, false_or]
    by_cases ha : job.Readable a
    · by_cases hb : job.Readable b
      · simp only [decode_append_readable hencoding ha hb, ha, hb, true_or]
      · have hab : ¬ job.Readable (a ++ b) := fun h => hb ((readable_append job a b).mp h).2
        have hsymbols : job.decodeSymbols b ≠ [] := fun h => hb (readable_of_nil h)
        rw [decode_unreadable hencoding hab, decode_unreadable hencoding hb, append_nil, eq_comm,
          decode_eq_nil_iff hencoding ha]
        simp only [ha, hb, hsymbols, iff_false, not_true, false_or, or_false]
    · have hab : ¬ job.Readable (a ++ b) := fun h => ha ((readable_append job a b).mp h).1
      have hsymbols : job.decodeSymbols a ≠ [] := fun h => ha (readable_of_nil h)
      rw [decode_unreadable hencoding hab, decode_unreadable hencoding ha, nil_append, eq_comm]
      by_cases hb : job.Readable b
      · rw [decode_eq_nil_iff hencoding hb]
        simp only [ha, hb, hsymbols, iff_true, false_or]
      · simp only [decode_unreadable hencoding hb, ha, hb, true_or]

/-- The letter `a`, and an added token with a blank in its text. -/
def addedToken : IToken where
  tokenType := .BPE
  vocab := ({} : Vocab).addTokens [[97], [60, 97, 32, 98, 62]]
  byteEncoding := .Gpt2

def addedJob : JobToken where
  token := addedToken
  splitter := ⟨none⟩
  algorithm := .bpe (({} : Bpe).setMergeRules [])

/-- The added token takes the text of the letter away. -/
theorem decode_append_added :
    configure noRegex addedToken = some addedJob ∧ addedJob.decode [0] = [97] ∧
      addedJob.decode ([0] ++ [1]) ≠ addedJob.decode [0] ++ addedJob.decode [1] := by
  refine ⟨rfl, ?_, ?_⟩ <;> decide +kernel

end JobToken

end JobTokenizer
