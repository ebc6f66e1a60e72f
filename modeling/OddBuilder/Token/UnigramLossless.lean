import Mathlib.Algebra.Order.Field.Basic
import Mathlib.Tactic.Linarith
import OddBuilder.Token.Decoding
import OddBuilder.Token.Unigram

/-!
# Unigram encoding and its text

Whatever tiling is chosen, its tokens spell the chunk, unless a piece of it has a text
that looks like the spelling of a byte: such a piece is decoded to that byte.
-/

namespace JobTokenizer

open List ITokenAlgo ByteFallback

/-- A buffer that is large enough takes the bytes of the chunk. -/
def ITokenAlgo.Lossless (algo : ITokenAlgo) (vocab : Vocab) (tokens : List TokenId) (chunk : Text) : Prop :=
  ∀ capacity, (algo.text (some vocab) tokens).length ≤ capacity →
    algo.decode (some vocab) tokens capacity = chunk

theorem ITokenAlgo.lossless_iff {algo : ITokenAlgo} {vocab : Vocab} {tokens : List TokenId} {chunk : Text} :
    algo.Lossless vocab tokens chunk ↔ algo.text (some vocab) tokens = chunk := by
  constructor
  · intro h
    have hfull := h _ (Nat.le_refl _)
    rwa [decode_take, take_length] at hfull
  · intro h capacity room
    rw [decode_take, take_of_length_le room, h]

theorem pieceText_plain {piece : Text} (h : isByteToken piece = false) :
    pieceText id piece = piece := by
  simp [pieceText, parseByteToken_eq_none h]

theorem pieceText_spelled {piece : Text} (h : isByteToken piece = true) :
    ∃ byte, pieceText id piece = [byte] := by
  obtain ⟨byte, hparse⟩ := parseByteToken_eq_some h
  exact ⟨byte, by simp [pieceText, hparse]⟩

theorem isByteToken_singleton (byte : UInt8) : isByteToken [byte] = false := rfl

/-- The text of the token of a byte: the byte, or its spelling. -/
theorem findInitialByteToken_text {vocab : Vocab} (consistent : vocab.Consistent) {byte : UInt8}
    (hfound : Bpe.findInitialByteToken (some vocab) byte ≠ kInvalidToken) :
    vocab.tokenText (Bpe.findInitialByteToken (some vocab) byte) =
      if vocab.findId [byte] ≠ kInvalidToken then [byte] else byteToStringView byte := by
  simp only [Bpe.findInitialByteToken] at hfound ⊢
  split at hfound
  · rename_i hown
    rw [if_pos hown, if_pos hown]
    exact consistent.tokenText_findId hown
  · rename_i hspelled
    rw [if_neg hspelled, if_neg hspelled]
    exact consistent.tokenText_findId hfound

/-- Either way the byte is read back. -/
theorem findInitialByteToken_piece {vocab : Vocab} (consistent : vocab.Consistent) {byte : UInt8}
    (hfound : Bpe.findInitialByteToken (some vocab) byte ≠ kInvalidToken) :
    pieceText id (vocab.tokenText (Bpe.findInitialByteToken (some vocab) byte)) = [byte] := by
  rw [findInitialByteToken_text consistent hfound]
  split
  · exact pieceText_plain (isByteToken_singleton byte)
  · simp [pieceText, parseByteToken_byteToStringView]

namespace Unigram

theorem insertRecord_length (trie : Trie) (record : TokenRecord) :
    trie.nodes.length ≤ (insertRecord trie record).nodes.length ∧
      (insertRecord trie record).nodes.length ≤ trie.nodes.length + record.text.length := by
  unfold insertRecord
  split
  · exact ⟨Nat.le_refl _, Nat.le_add_right _ _⟩
  · exact trie.insert_length _ _

/-- The trie has no more nodes than the texts have bytes, beside its root. -/
theorem rebuildTrie_length_le (vocab : Vocab) :
    (rebuildTrie (some vocab)).nodes.length ≤ 1 + ((vocab.records.map TokenRecord.text).map List.length).sum := by
  rw [rebuildTrie]
  generalize vocab.records = records
  induction records using List.reverseRecOn with
  | nil => exact Nat.le_refl 1
  | append_singleton records record ih =>
    have hstep := (insertRecord_length (records.foldl insertRecord {}) record).2
    rw [foldl_concat, map_append, map_append, sum_append]
    simp only [map_cons, map_nil, sum_singleton]
    omega

/-- A trie of records: what it finds is the id of a valid one with the text, and it finds the text of
every valid one. -/
structure Indexes (trie : Trie) (records : List TokenRecord) : Prop where
  wellFormed : trie.WellFormed
  sound : ∀ text, trie.find text ≠ kInvalidToken →
    ∃ record ∈ records, record.isValid = true ∧ record.text = text ∧ record.id = trie.find text
  complete : ∀ record ∈ records, record.isValid = true → record.text ≠ [] →
    trie.find record.text ≠ kInvalidToken

theorem insertRecord_indexes {trie : Trie} {records : List TokenRecord} (h : Indexes trie records)
    {record : TokenRecord} (room : (insertRecord trie record).nodes.length ≤ 4294967295) :
    Indexes (insertRecord trie record) (records ++ [record]) := by
  unfold insertRecord at room ⊢
  split
  · rename_i hskip
    refine ⟨h.wellFormed, fun text hfind => ?_, fun other hother hvalid hne => ?_⟩
    · obtain ⟨found, hfound, hrest⟩ := h.sound text hfind
      exact ⟨found, mem_append_left _ hfound, hrest⟩
    · rcases mem_append.mp hother with hother | hother
      · exact h.complete other hother hvalid hne
      · obtain rfl := mem_singleton.mp hother
        simp only [hvalid, Bool.not_true, Bool.false_or, List.isEmpty_iff] at hskip
        exact absurd hskip hne
  · rename_i hnot
    rw [if_neg hnot] at room
    simp only [Bool.or_eq_true, Bool.not_eq_true', Bool.not_eq_false, List.isEmpty_iff, not_or] at hnot
    have hid : record.id ≠ kInvalidToken := bne_iff_ne.mp hnot.1
    obtain ⟨hwell, hfinds⟩ := h.wellFormed.insert room
    refine ⟨hwell, fun text hfind => ?_, fun other hother hvalid hne => ?_⟩
    · rw [hfinds] at hfind ⊢
      by_cases hsame : text = record.text
      · rw [if_pos ⟨hsame, hnot.2, hid⟩]
        exact ⟨record, List.mem_append_right _ (List.mem_singleton.mpr rfl), hnot.1, hsame.symm, rfl⟩
      · have hold : ¬ (text = record.text ∧ record.text ≠ [] ∧ record.id ≠ kInvalidToken) :=
          fun hnew => hsame hnew.1
        rw [if_neg hold] at hfind ⊢
        obtain ⟨found, hfound, hrest⟩ := h.sound text hfind
        exact ⟨found, mem_append_left _ hfound, hrest⟩
    · rw [hfinds]
      split
      · exact hid
      · rename_i hold
        rcases mem_append.mp hother with hother | hother
        · exact h.complete other hother hvalid hne
        · obtain rfl := mem_singleton.mp hother
          exact absurd ⟨rfl, hne, hid⟩ hold

theorem rebuildTrie_indexes (vocab : Vocab) (room : (rebuildTrie (some vocab)).nodes.length ≤ 4294967295) :
    Indexes (rebuildTrie (some vocab)) vocab.records := by
  rw [rebuildTrie] at room ⊢
  generalize vocab.records = records at room ⊢
  induction records using List.reverseRecOn with
  | nil =>
    refine ⟨Trie.wellFormed_new, fun text hfind => absurd (Trie.find_new text) hfind, ?_⟩
    exact fun record hrecord => nomatch hrecord
  | append_singleton records record ih =>
    rw [foldl_concat] at room ⊢
    exact insertRecord_indexes (ih (Nat.le_trans (insertRecord_length _ _).1 room)) room

/-- No valid record with the text of a spelling occurs in the chunk. -/
def NoSpelling (vocab : Vocab) (chunk : Text) : Prop :=
  ∀ record ∈ vocab.records, record.isValid = true → ByteFallback.isByteToken record.text = true →
    ¬ record.text <:+: chunk

variable {vocab : Vocab} {specialTokens : SpecialTokens} {chunk : Text}

section

variable (consistent : vocab.Consistent) (placed : vocab.Placed)
  (indexes : Indexes (rebuildTrie (some vocab)) vocab.records)

include consistent placed indexes

/-- A piece is decoded to its own text, if that is not the spelling of a byte. -/
theorem Piece.text {text : Text} {token : TokenId} (h : (new (some vocab) specialTokens).Piece text token)
    (plain : NoSpelling vocab text) : pieceText id (vocab.tokenText token) = text := by
  obtain ⟨hvalid, ⟨-, hfind⟩ | ⟨byte, rfl, hbyte⟩⟩ := h
  · obtain ⟨record, hrecord, hrecordValid, htext, hid⟩ :=
      indexes.sound text (fun hinvalid => hvalid (hfind.symm.trans hinvalid))
    have hpiece : vocab.tokenText token = text := by
      rw [← htext, ← placed.tokenText_id hrecord hrecordValid, hid]
      exact congrArg vocab.tokenText hfind.symm
    have hplain : isByteToken text = false := by
      by_contra hspelled
      rw [Bool.not_eq_false, ← htext] at hspelled
      exact plain record hrecord hrecordValid hspelled (htext ▸ infix_refl _)
    rw [hpiece, pieceText_plain hplain]
  · have hfound : Bpe.findInitialByteToken (some vocab) byte ≠ kInvalidToken :=
      fun hinvalid => hvalid (hbyte.symm.trans hinvalid)
    rw [← hbyte]
    exact findInitialByteToken_piece consistent hfound

/-- The tokens of a tiling spell what they tile. -/
theorem Tiles.text {text : Text} {ids : List TokenId} (h : Tiles (new (some vocab) specialTokens) text ids)
    (plain : NoSpelling vocab text) : unigram.text (some vocab) ids = text := by
  induction h with
  | nil => rfl
  | @piece text piece ids id h hpiece ih =>
    have hbefore := ih fun record hrecord hvalid hspelled hinside =>
      plain record hrecord hvalid hspelled (hinside.trans ⟨[], piece, rfl⟩)
    have hhere := hpiece.text consistent placed indexes fun record hrecord hvalid hspelled hinside =>
      plain record hrecord hvalid hspelled (hinside.trans ⟨text, [], append_nil _⟩)
    rw [text_some] at hbefore ⊢
    rw [flatMap_append, hbefore, flatMap_singleton]
    exact congrArg (text ++ ·) hhere

end

theorem Tiles.append {unigram : Unigram} {text text' : Text} {ids ids' : List TokenId}
    (h : Tiles unigram text ids) (h' : Tiles unigram text' ids') :
    Tiles unigram (text ++ text') (ids ++ ids') := by
  induction h' with
  | nil => rwa [append_nil, append_nil]
  | piece _ hpiece ih =>
    rw [← append_assoc, ← append_assoc]
    exact .piece ih hpiece

/-- A score that is worse the longer the text of the token is. -/
def lengthScore (vocab : Vocab) (n : Nat) (token : TokenId) : ℚ :=
  -((pieceText id (vocab.tokenText token)).length : ℚ) / (n + 1)

open Viterbi (total Live)

theorem total_lengthScore (vocab : Vocab) (n : Nat) (tokens : List TokenId) :
    total (lengthScore vocab n) tokens =
      -((unigram.text (some vocab) tokens).length : ℚ) / (n + 1) := by
  rw [text_some]
  induction tokens with
  | nil => simp [total]
  | cons token tokens ih =>
    have hsplit : total (lengthScore vocab n) (token :: tokens) =
        lengthScore vocab n token + total (lengthScore vocab n) tokens := by
      rw [total, map_cons, sum_cons, total]
    rw [hsplit, ih, lengthScore, flatMap_cons, length_append, Nat.cast_add, ← add_div]
    congr 1
    exact (neg_add _ _).symm

/-- The texts of as many bytes as `n` stay far above the threshold. -/
theorem lengthScore_above {m n : Nat} (h : m ≤ n) : kMinValidScore < -(m : ℚ) / (n + 1) := by
  have hpos : (0 : ℚ) < n + 1 := by positivity
  have hlow : kMinValidScore < -1 := by decide
  refine lt_trans hlow ?_
  rw [lt_div_iff₀ hpos]
  have hle : (m : ℚ) ≤ n := Nat.cast_le.mpr h
  linarith

theorem text_bytes (consistent : vocab.Consistent) {text : Text} (covered : Covered vocab text) :
    unigram.text (some vocab) (text.map (findByteFallbackToken (some vocab))) = text := by
  rw [text_some]
  induction text with
  | nil => rfl
  | cons byte text ih =>
    obtain ⟨hbyte, hrest⟩ := forall_mem_cons.mp covered
    rw [map_cons, flatMap_cons, ih hrest]
    have hpiece := findInitialByteToken_piece consistent ((findByteFallbackToken_ne_iff vocab byte).mpr hbyte)
    exact congrArg (· ++ text) hpiece

/-- By this score the encoder finds a tiling with a shortest text. -/
theorem encode_shortest {unigram : Unigram} (hvocab : unigram.vocab = some vocab)
    (consistent : vocab.Consistent) (covered : Covered vocab chunk) (nonempty : chunk ≠ []) {room : Nat}
    (fits : chunk.length ≤ room) :
    let out := unigram.encode (lengthScore vocab chunk.length) chunk room
    Tiles unigram chunk out ∧ Live (lengthScore vocab chunk.length) kMinValidScore out ∧
      ∀ ids, Tiles unigram chunk ids →
        (ITokenAlgo.unigram.text (some vocab) out).length ≤
          (ITokenAlgo.unigram.text (some vocab) ids).length := by
  intro out
  -- the tiling by single bytes is above the threshold for every initial part
  obtain ⟨habove, hbest⟩ := scoreOf_reached (lengthScore vocab chunk.length) hvocab covered
    fun part hpart => by
      have hpartCovered := covered.of_part hpart
      refine ⟨_, hpartCovered.tiles hvocab, ?_⟩
      rw [total_lengthScore, text_bytes consistent hpartCovered]
      exact lengthScore_above hpart.length_le
  obtain ⟨htiles, hlive, htotal⟩ := (encode_search _ hvocab covered nonempty fits).1 habove
  refine ⟨htiles, hlive, fun ids hids => ?_⟩
  have hle := hbest ids hids
  rw [← htotal, total_lengthScore, total_lengthScore] at hle
  have hpos : (0 : ℚ) < chunk.length + 1 := by positivity
  exact Nat.cast_le.mp (neg_le_neg_iff.mp ((div_le_div_iff_of_pos_right hpos).mp hle))

variable (specialTokens) in
/-- A chunk in which the text of a spelled record occurs has a tiling with a shorter text. -/
theorem spelling_tiling (consistent : vocab.Consistent) (placed : vocab.Placed)
    (indexes : Indexes (rebuildTrie (some vocab)) vocab.records) (covered : Covered vocab chunk)
    {record : TokenRecord} (hrecord : record ∈ vocab.records) (hvalid : record.isValid = true)
    (hspelled : isByteToken record.text = true) (hinside : record.text <:+: chunk) :
    ∃ ids, Tiles (new (some vocab) specialTokens) chunk ids ∧
      (unigram.text (some vocab) ids).length < chunk.length := by
  obtain ⟨s, u, rfl⟩ := hinside
  have hs : Covered vocab s := fun byte hbyte =>
    covered byte (mem_append_left _ (mem_append_left _ hbyte))
  have hu : Covered vocab u := fun byte hbyte => covered byte (mem_append_right _ hbyte)
  have hlength := isByteToken_length hspelled
  have hne : record.text ≠ [] := length_pos_iff.mp (by omega)
  have hfind := indexes.complete record hrecord hvalid hne
  obtain ⟨found, hfound, hfoundValid, hfoundText, hfoundId⟩ := indexes.sound record.text hfind
  have hpiece : (new (some vocab) specialTokens).Piece record.text found.id :=
    ⟨hfoundId ▸ hfind, Or.inl ⟨hne, hfoundId.symm⟩⟩
  refine ⟨_, ((hs.tiles rfl).append (.piece .nil hpiece)).append (hu.tiles rfl), ?_⟩
  -- the record in one piece is decoded to one byte
  obtain ⟨byte, hbyte⟩ := pieceText_spelled (hfoundText.symm ▸ hspelled)
  have hstext := text_bytes consistent hs
  have hutext := text_bytes consistent hu
  rw [text_some] at hstext hutext ⊢
  rw [nil_append, flatMap_append, flatMap_append, hstext, hutext, flatMap_singleton,
    placed.tokenText_id hfound hfoundValid]
  change (s ++ pieceText id found.text ++ u).length < _
  rw [hbyte]
  simp only [length_append, length_singleton]
  omega

variable (specialTokens) in
/-- For every scoring the chunk comes back as soon as it has a tiling that stays above the threshold,
if and only if no token in it looks like the spelling of a byte. -/
theorem encode_lossless_iff (consistent : vocab.Consistent) (placed : vocab.Placed)
    (indexes : Indexes (rebuildTrie (some vocab)) vocab.records) (covered : Covered vocab chunk)
    {room : Nat} (fits : chunk.length ≤ room) :
    (∀ tokenScore : TokenId → ℚ, unigram.Lossless vocab
          ((new (some vocab) specialTokens).encode tokenScore chunk room) chunk ↔
        ∃ ids, Tiles (new (some vocab) specialTokens) chunk ids ∧ Live tokenScore kMinValidScore ids) ↔
      NoSpelling vocab chunk := by
  simp only [ITokenAlgo.lossless_iff]
  by_cases hempty : chunk = []
  · subst hempty
    refine iff_of_true (fun tokenScore => iff_of_true rfl ⟨[], .nil, fun part hpart => ?_⟩) ?_
    · rw [prefix_nil.mp hpart]
      exact (by decide : kMinValidScore < 0)
    · intro record _ _ hspelled hinside
      rw [infix_nil.mp hinside] at hspelled
      cases hspelled
  constructor
  · intro h record hrecord hvalid hspelled hinside
    obtain ⟨htiles, hlive, hshortest⟩ :=
      encode_shortest (new_vocab (some vocab) specialTokens) consistent covered hempty fits
    have hsame := (h (lengthScore vocab chunk.length)).mpr ⟨_, htiles, hlive⟩
    obtain ⟨ids, hids, hlt⟩ := spelling_tiling specialTokens consistent placed indexes
      covered hrecord hvalid hspelled hinside
    have hle := hshortest ids hids
    rw [hsame] at hle
    omega
  · intro plain tokenScore
    obtain ⟨hfound, hnone⟩ := encode_search tokenScore (new_vocab (some vocab) specialTokens)
      covered hempty fits
    by_cases habove : kMinValidScore <
        scoreOf ((new (some vocab) specialTokens).search tokenScore chunk) chunk.length
    · obtain ⟨htiles, hlive, -⟩ := hfound habove
      exact iff_of_true (htiles.text consistent placed indexes plain) ⟨_, htiles, hlive⟩
    · rw [hnone (not_lt.mp habove)]
      refine iff_of_false (fun hnil => hempty hnil.symm) ?_
      rintro ⟨ids, htiles, hlive⟩
      exact habove (lt_of_lt_of_le hlive.total (htiles.live_le rfl covered hlive))

end Unigram

end JobTokenizer
