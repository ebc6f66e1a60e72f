import Mathlib.Data.List.Count
import OddBuilder.Token.ByteFallback
import OddBuilder.Token.Runtime

/-!
# Encoding by byte-pair merges

The two ways into the merging: from the bytes of a chunk, each with its own token or
the one of its spelling, and from symbols, each with the token of its text.
-/

namespace JobTokenizer

open List

namespace Bpe

open PairMerging

/-- The token of a byte: of the byte itself, or else of its spelling. -/
def findInitialByteToken (vocab : Option Vocab) (byte : UInt8) : TokenId :=
  match vocab with
  | none => kInvalidToken
  | some vocab =>
    let id := vocab.findId [byte]
    if id ≠ kInvalidToken then id else vocab.findId (ByteFallback.byteToStringView byte)

/-- `encode` of a chunk, with room for so many tokens. -/
def encode (bpe : Bpe) (vocab : Option Vocab) (chunk : Text) (room : Nat) : Option (List TokenId) :=
  if chunk.isEmpty || room == 0 then some []
  else do
    let initialIds := chunk.map (findInitialByteToken vocab)
    let merged ← bpe.applyMerges (turnsFor initialIds) initialIds
    some (merged.take room)

/-- `encode` of symbols. -/
def encodeSymbols (bpe : Bpe) (vocab : Option Vocab) (symbols : List Text) : Option (List TokenId) :=
  if symbols.isEmpty then some []
  else
    match vocab with
    | none => some []
    | some vocab =>
      let initialIds := symbols.map vocab.findId
      bpe.applyMerges (turnsFor initialIds) initialIds

variable {bpe : Bpe} {vocab : Vocab} {chunk : Text}

/-- With room for every byte a chunk is encoded to its merged initial tokens. -/
theorem encode_eq (built : bpe.Built) (vocab : Vocab) {room : Nat} (fits : chunk.length ≤ room) :
    bpe.encode (some vocab) chunk room =
      some (merge bpe.tableRule (chunk.map (findInitialByteToken (some vocab)))) := by
  unfold encode
  split
  · rename_i hempty
    have hnil : chunk = [] := by
      rcases Bool.or_eq_true_iff.mp hempty with hempty | hempty
      · exact isEmpty_iff.mp hempty
      · rw [beq_iff_eq.mp hempty] at fits
        exact length_eq_zero_iff.mp (Nat.le_zero.mp fits)
    rw [hnil]
    rfl
  · have hlength : (merge bpe.tableRule (chunk.map (findInitialByteToken (some vocab)))).length ≤
        (chunk.map (findInitialByteToken (some vocab))).length := merge_length_le _
    rw [length_map] at hlength
    simp [applyMerges_table built _ (Nat.le_refl _), take_of_length_le (Nat.le_trans hlength fits)]

theorem encodeSymbols_eq (built : bpe.Built) (vocab : Vocab) (symbols : List Text) :
    bpe.encodeSymbols (some vocab) symbols =
      some (merge bpe.tableRule (symbols.map vocab.findId)) := by
  unfold encodeSymbols
  split
  · rename_i hempty
    rw [isEmpty_iff.mp hempty]
    rfl
  · exact applyMerges_table built _ (Nat.le_refl _)

/-- No byte of the chunk needs its spelling: it has a token of its own, or its spelling has none. -/
def NoFallback (vocab : Vocab) (chunk : Text) : Prop :=
  ∀ byte ∈ chunk, vocab.findId [byte] ≠ kInvalidToken ∨
    vocab.findId (ByteFallback.byteToStringView byte) = kInvalidToken

/-- Every merge is between valid tokens and makes one. -/
def ValidRules (bpe : Bpe) : Prop :=
  ∀ rule ∈ bpe.rules, rule.left ≠ kInvalidToken ∧ rule.right ≠ kInvalidToken ∧
    rule.newId ≠ kInvalidToken

/-- What the rank table says comes from rules: the pair from one, the new token from one. -/
theorem tableRule_rules (built : bpe.Built) {a b c : TokenId} {rank : Nat}
    (h : bpe.tableRule a b = some (rank, c)) :
    (∃ rule ∈ bpe.rules, rule.left = a ∧ rule.right = b) ∧ ∃ rule ∈ bpe.rules, rule.newId = c := by
  have hlookup := lookup_eq bpe.rules a b
  rw [← built.eq_rebuild] at hlookup
  obtain ⟨r, hr, h⟩ := Option.bind_eq_some_iff.mp h
  obtain ⟨rule, hrule, h⟩ := Option.bind_eq_some_iff.mp h
  obtain ⟨rfl, rfl⟩ := Prod.mk.inj (Option.some.inj h)
  refine ⟨?_, rule, mem_of_getElem? hrule, rfl⟩
  rw [hr] at hlookup
  obtain ⟨⟨index, newId⟩, hfor, -⟩ := Option.map_eq_some_iff.mp hlookup.symm
  exact ⟨⟨a, b, newId⟩, mem_of_getElem? (ruleFor_getElem hfor), rfl, rfl⟩

/-- Merges between valid tokens leave the invalid ones as many as they were. -/
theorem merge_count_invalid (built : bpe.Built) (valid : bpe.ValidRules) (ids : List TokenId) :
    (merge bpe.tableRule ids).count kInvalidToken = ids.count kInvalidToken := by
  refine merge_keeps (P := fun w => w.count kInvalidToken = ids.count kInvalidToken) ?_ rfl
  intro u a b v r c hrule h
  obtain ⟨⟨rule, hmem, rfl, rfl⟩, rule', hmem', rfl⟩ := tableRule_rules built hrule
  have hleft := (valid rule hmem).1
  have hright := (valid rule hmem).2.1
  have hnew := (valid rule' hmem').2.2
  rw [← h]
  simp [hleft, hright, hnew]

theorem findInitialByteToken_eq (vocab : Vocab) (byte : UInt8) :
    findInitialByteToken (some vocab) byte = vocab.findId [byte] ↔
      vocab.findId [byte] ≠ kInvalidToken ∨
        vocab.findId (ByteFallback.byteToStringView byte) = kInvalidToken := by
  simp only [findInitialByteToken]
  by_cases h : vocab.findId [byte] = kInvalidToken
  · simp [h]
  · simp [h]

/-- A byte that needs its spelling is invalid only among the symbols, so there are more invalid
symbols than invalid initial tokens. -/
theorem count_invalid_lt (h : ¬ NoFallback vocab chunk) :
    (chunk.map (findInitialByteToken (some vocab))).count kInvalidToken <
      ((chunk.map fun byte => [byte]).map vocab.findId).count kInvalidToken := by
  rw [map_map, count_eq_countP, count_eq_countP, countP_map, countP_map]
  change chunk.countP (fun b => findInitialByteToken (some vocab) b == kInvalidToken) <
    chunk.countP fun b => vocab.findId [b] == kInvalidToken
  obtain ⟨byte, hbyte, hneeds⟩ : ∃ byte ∈ chunk, vocab.findId [byte] = kInvalidToken ∧
      vocab.findId (ByteFallback.byteToStringView byte) ≠ kInvalidToken := by
    simpa [NoFallback] using h
  have himp : ∀ b, (findInitialByteToken (some vocab) b == kInvalidToken) = true →
      (vocab.findId [b] == kInvalidToken) = true := by
    intro b hb
    rw [beq_iff_eq] at hb ⊢
    by_contra hne
    rw [(findInitialByteToken_eq vocab b).mpr (Or.inl hne)] at hb
    exact hne hb
  obtain ⟨s, t, rfl⟩ := append_of_mem hbyte
  have hbefore := countP_mono_left (l := s) fun b _ => himp b
  have hafter := countP_mono_left (l := t) fun b _ => himp b
  have hhere : findInitialByteToken (some vocab) byte ≠ kInvalidToken := by
    simp only [findInitialByteToken, hneeds.1]
    exact hneeds.2
  simp only [countP_append, countP_cons, hneeds.1, if_true, beq_iff_eq, hhere, if_false]
  omega

/-- A chunk and its one-byte symbols give the same tokens if no byte needs its spelling, and with
merges between valid tokens only then. -/
theorem encode_paths_agree (built : bpe.Built) (vocab : Vocab) (chunk : Text) {room : Nat}
    (fits : chunk.length ≤ room) :
    (NoFallback vocab chunk →
      bpe.encode (some vocab) chunk room =
        bpe.encodeSymbols (some vocab) (RawByteEncoder.encode chunk)) ∧
    (bpe.ValidRules →
      (bpe.encode (some vocab) chunk room =
        bpe.encodeSymbols (some vocab) (RawByteEncoder.encode chunk) ↔ NoFallback vocab chunk)) := by
  have henough : NoFallback vocab chunk →
      bpe.encode (some vocab) chunk room =
        bpe.encodeSymbols (some vocab) (RawByteEncoder.encode chunk) := by
    intro h
    have hsame : chunk.map (findInitialByteToken (some vocab)) =
        (RawByteEncoder.encode chunk).map vocab.findId := by
      rw [RawByteEncoder.encode, map_map]
      exact map_congr_left fun byte hbyte => (findInitialByteToken_eq vocab byte).mpr (h byte hbyte)
    rw [encode_eq built vocab fits, encodeSymbols_eq built, hsame]
  refine ⟨henough, fun valid => ⟨fun heq => ?_, henough⟩⟩
  rw [encode_eq built vocab fits, encodeSymbols_eq built] at heq
  by_contra hnot
  have hcount := congrArg (List.count kInvalidToken) (Option.some.inj heq)
  rw [merge_count_invalid built valid, merge_count_invalid built valid] at hcount
  exact Nat.ne_of_lt (count_invalid_lt hnot) hcount

/-- The letter `a` with a token of its own, and the letter `b` with its spelling only. -/
def spelledVocab : Vocab := ({} : Vocab).addTokens [[97], [60, 48, 120, 54, 50, 62]]

theorem encode_paths_agree_spelled :
    ({} : Bpe).encode (some spelledVocab) [97] 1 =
        ({} : Bpe).encodeSymbols (some spelledVocab) (RawByteEncoder.encode [97]) ∧
      (({} : Bpe).encode (some spelledVocab) [98] 1 =
        ({} : Bpe).encodeSymbols (some spelledVocab) (RawByteEncoder.encode [98]) ↔
          NoFallback spelledVocab [98]) :=
  ⟨(encode_paths_agree .new spelledVocab [97] (Nat.le_refl 1)).1
      (forall_mem_singleton.mpr (Or.inl (by decide))),
    (encode_paths_agree .new spelledVocab [98] (Nat.le_refl 1)).2 fun _ h => nomatch h⟩

/-- Only the bytes of a chunk find the token of a spelling. -/
theorem encode_paths_differ :
    ({} : Bpe).encode (some spelledVocab) [98] 16 = some [1] ∧
      ({} : Bpe).encodeSymbols (some spelledVocab) (RawByteEncoder.encode [98]) =
        some [kInvalidToken] := by
  constructor <;> decide

end Bpe

end JobTokenizer
