import OddBuilder.Token.Runtime

/-!
# Byte-level encoding is lossless

Ids spell a byte string when the text of each is made of the symbols of some bytes,
and these are, one after the other, the byte string. The symbols of a chunk spell
it, every merge keeps what is spelt, and decoding reads it back.
-/

namespace JobTokenizer

open List

namespace JobToken

open Gpt2ByteEncoder (symbol)

variable {vocab : Vocab} {bytes : Text}

/-- The ids spell the bytes: `pieces` are the bytes of the ids, none of them empty. -/
def Spells (vocab : Vocab) (ids : List TokenId) (bytes : Text) : Prop :=
  ∃ pieces : List Text, (∀ piece ∈ pieces, piece ≠ []) ∧
    ids.map vocab.tokenText = pieces.map (fun piece => (Gpt2ByteEncoder.encode piece).flatten) ∧
    pieces.flatten = bytes

theorem Spells.append {ids ids' : List TokenId} {bytes' : Text} (h : Spells vocab ids bytes)
    (h' : Spells vocab ids' bytes') : Spells vocab (ids ++ ids') (bytes ++ bytes') := by
  obtain ⟨pieces, hne, htexts, rfl⟩ := h
  obtain ⟨pieces', hne', htexts', rfl⟩ := h'
  refine ⟨pieces ++ pieces', ?_, ?_, flatten_append⟩
  · intro piece hpiece
    rcases mem_append.mp hpiece with hpiece | hpiece
    · exact hne piece hpiece
    · exact hne' piece hpiece
  · rw [map_append, map_append, htexts, htexts']

/-- A merge to an id whose text is the two texts together keeps what is spelt. -/
theorem Spells.merge {u v : List TokenId} {a b c : TokenId}
    (htext : vocab.tokenText c = vocab.tokenText a ++ vocab.tokenText b)
    (h : Spells vocab (u ++ a :: b :: v) bytes) : Spells vocab (u ++ c :: v) bytes := by
  obtain ⟨pieces, hne, htexts, rfl⟩ := h
  rw [map_append] at htexts
  obtain ⟨pu, rest, rfl, hpu, hrest⟩ := map_eq_append_iff.mp htexts.symm
  obtain ⟨pa, rest, rfl, hpa, hrest⟩ := map_eq_cons_iff.mp hrest
  obtain ⟨pb, pv, rfl, hpb, hpv⟩ := map_eq_cons_iff.mp hrest
  refine ⟨pu ++ (pa ++ pb) :: pv, ?_, ?_, ?_⟩
  · intro piece hpiece
    rcases mem_append.mp hpiece with hpiece | hpiece
    · exact hne piece (mem_append_left _ hpiece)
    · rcases mem_cons.mp hpiece with rfl | hpiece
      · have hpa' := hne pa (by simp)
        simp [hpa']
      · exact hne piece (mem_append_right _ (by simp [hpiece]))
  · have hjoin : (Gpt2ByteEncoder.encode (pa ++ pb)).flatten =
        vocab.tokenText a ++ vocab.tokenText b := by
      rw [← hpa, ← hpb]
      simp [Gpt2ByteEncoder.encode]
    rw [map_append, map_cons, htext, map_append, map_cons, hjoin, hpu, hpv]
  · simp

/-- The symbols of the bytes spell them. -/
theorem spells_symbols (consistent : vocab.Consistent)
    (bytes : ∀ byte, vocab.findId (symbol byte) ≠ kInvalidToken) (text : Text) :
    Spells vocab ((Gpt2ByteEncoder.encode text).map vocab.findId) text := by
  refine ⟨text.map fun byte => [byte], ?_, ?_, ?_⟩
  · intro piece hpiece
    obtain ⟨byte, -, rfl⟩ := mem_map.mp hpiece
    exact cons_ne_nil _ _
  · simp only [Gpt2ByteEncoder.encode, map_map]
    apply map_congr_left
    intro byte _
    simp [consistent.tokenText_findId (bytes byte)]
  · induction text with
    | nil => rfl
    | cons byte text ih => simp [ih]

/-- The result of a rule has the two texts together as its text. -/
theorem resolved_text (consistent : vocab.Consistent) {merges : List (Text × Text)}
    {rule : MergeRule} (h : rule ∈ resolveMerges vocab merges) :
    vocab.tokenText rule.newId = vocab.tokenText rule.left ++ vocab.tokenText rule.right := by
  obtain ⟨⟨left⟩, -, hrule⟩ := mem_filterMap.mp h
  simp only [resolveMerge] at hrule
  split_ifs at hrule with hknown hmerged
  obtain rfl := Option.some.inj hrule
  obtain ⟨hleft, hright⟩ := not_or.mp hknown
  simp [consistent.tokenText_findId hleft, consistent.tokenText_findId hright,
    consistent.tokenText_findId hmerged]

/-- What a chunk is encoded to spells the chunk. -/
theorem encodeSymbols_spells {algorithms : Algorithms} {job : JobToken}
    (consistent : job.token.vocab.Consistent) (gpt2 : job.token.byteEncoding = .Gpt2)
    (bytes : ∀ byte, job.token.vocab.findId (symbol byte) ≠ kInvalidToken)
    (few : (resolveMerges job.token.vocab job.token.merges).length ≤ 2 ^ 32)
    (halgorithm : job.algorithm =
      .bpe (({} : Bpe).setMergeRules (resolveMerges job.token.vocab job.token.merges)))
    (chunk : Text) :
    ∃ ids, encodeSymbols algorithms job (job.encodeBytes chunk) = some ids ∧
      Spells job.token.vocab ids chunk := by
  have hstart := spells_symbols consistent bytes chunk
  have hmerged := Bpe.applyMerges_greedy (.setMergeRules (resolveMerges job.token.vocab job.token.merges)
    .new) few ((Gpt2ByteEncoder.encode chunk).map job.token.vocab.findId) (Nat.le_refl _)
  have hencode : encodeSymbols algorithms job (job.encodeBytes chunk) =
      some (PairMerging.merge (Bpe.ruleFor (resolveMerges job.token.vocab job.token.merges))
        ((Gpt2ByteEncoder.encode chunk).map job.token.vocab.findId)) := by
    simp only [encodeSymbols, halgorithm, encodeBytes, gpt2]
    exact hmerged
  refine ⟨_, hencode, ?_⟩
  refine PairMerging.merge_keeps (P := fun ids => Spells job.token.vocab ids chunk) ?_ hstart
  intro u a b v rank c hrule hspells
  have hmem : (⟨a, b, c⟩ : MergeRule) ∈ resolveMerges job.token.vocab job.token.merges :=
    mem_of_getElem? (Bpe.ruleFor_getElem hrule)
  have htext := resolved_text consistent hmem
  exact Spells.merge htext hspells

theorem encodeChunks_spells {algorithms : Algorithms} {job : JobToken}
    (h : ∀ chunk, ∃ ids, encodeSymbols algorithms job (job.encodeBytes chunk) = some ids ∧
      Spells job.token.vocab ids chunk) (chunks : List Text) :
    ∃ ids, encodeChunks algorithms job chunks = some ids ∧
      Spells job.token.vocab ids chunks.flatten := by
  induction chunks with
  | nil => exact ⟨[], rfl, [], by simp, rfl, rfl⟩
  | cons chunk chunks ih =>
    obtain ⟨ids, hids, hspells⟩ := h chunk
    obtain ⟨rest, hrest, hspellsRest⟩ := ih
    obtain ⟨parts, hparts, rfl⟩ := Option.map_eq_some_iff.mp hrest
    refine ⟨ids ++ parts.flatten, ?_, hspells.append hspellsRest⟩
    simp [encodeChunks, hids, hparts]

/-- Decoding reads back what is spelt. -/
theorem decode_spells {job : JobToken} (gpt2 : job.token.byteEncoding = .Gpt2) {ids : List TokenId}
    (h : Spells job.token.vocab ids bytes) : job.decode ids = bytes := by
  obtain ⟨pieces, hne, htexts, rfl⟩ := h
  have hsymbols : job.decodeSymbols ids =
      pieces.map fun piece => (Gpt2ByteEncoder.encode piece).flatten := by
    rw [decodeSymbols, htexts, filter_eq_self]
    intro text htext
    obtain ⟨piece, hpiece, rfl⟩ := mem_map.mp htext
    cases piece with
    | nil => exact absurd rfl (hne [] hpiece)
    | cons byte piece =>
      have hsymbol := Gpt2ByteEncoder.symbol_ne_nil byte
      simp [Gpt2ByteEncoder.encode, hsymbol]
  cases ids with
  | nil =>
    cases pieces with
    | nil => rfl
    | cons piece pieces => cases htexts
  | cons id ids =>
    cases pieces with
    | nil => cases htexts
    | cons piece pieces =>
      simp only [decode, hsymbols, gpt2]
      exact Gpt2ByteEncoder.decode_pieces (piece :: pieces)

theorem chunks_flatten {regex : Regex} {job : JobToken} (noPrefix : job.token.addPrefixSpace = false)
    (text : Text) : (chunks regex job text).flatten = text := by
  unfold chunks
  split
  · rename_i hempty
    rw [isEmpty_iff.mp hempty]
    rfl
  · rename_i hne
    have hnormal : UnicodeNormalizer.normalize text { addDummyPrefixSpace := job.token.addPrefixSpace } =
        text := by
      rw [noPrefix, UnicodeNormalizer.normalize, if_neg hne]
      rfl
    obtain ⟨pieces, hpieces, hflat⟩ := RegexSplitter.split_flatten regex job.splitter text
    simp [hnormal, hpieces, hflat]

/-- A description of byte-level byte-pair encoding with nothing added to the text. -/
structure ByteLevel (token : IToken) : Prop where
  bpe : token.tokenType = .BPE
  gpt2 : token.byteEncoding = .Gpt2
  built : token.vocab.Built
  bytes : ∀ byte, token.vocab.findId (symbol byte) ≠ kInvalidToken
  nameless : token.special.idToName = ∅
  noBos : token.addBosToken = false
  noEos : token.addEosToken = false
  noPrefix : token.addPrefixSpace = false

variable {regex : Regex} {token : IToken} {job : JobToken}

/-- What the text of a byte-level description is encoded to: its chunks, one after the other. -/
theorem ByteLevel.encode_eq (h : ByteLevel token) (configured : configure regex token = some job)
    (algorithms : Algorithms) (text : Text) :
    encode regex algorithms job text = encodeChunks algorithms job (chunks regex job text) := by
  obtain ⟨rfl⟩ := configure_eq configured
  simp only [encode, encodeLoop_nameless h.nameless, encodeNormalText_eq, h.noBos, h.noEos]
  cases encodeChunks algorithms job (chunks regex job text) <;> rfl

/-- Decoding what a text was encoded to gives the text back, as long as ids and ranks fit their
32 bits. -/
theorem decode_encode_text (h : ByteLevel token) (configured : configure regex token = some job)
    (small : token.vocab.records.length ≤ Vocab.kMaxRecords)
    (few : (resolveMerges token.vocab token.merges).length ≤ 2 ^ 32) (algorithms : Algorithms)
    (text : Text) :
    ∃ ids, encode regex algorithms job text = some ids ∧ job.decode ids = text := by
  rw [h.encode_eq configured]
  obtain ⟨rfl, halgorithm⟩ := configure_eq configured
  simp only [makeAlgorithm, h.bpe, Option.some.injEq] at halgorithm
  have hchunk : ∀ chunk, ∃ ids, encodeSymbols algorithms job (job.encodeBytes chunk) = some ids ∧
      Spells job.token.vocab ids chunk :=
    encodeSymbols_spells (h.built.consistent small) h.gpt2 h.bytes few halgorithm.symm
  obtain ⟨ids, hids, hspells⟩ := encodeChunks_spells hchunk (chunks regex job text)
  rw [chunks_flatten h.noPrefix] at hspells
  exact ⟨ids, hids, decode_spells h.gpt2 hspells⟩

/-- The algorithms that a byte-pair description does not use. -/
def noAlgorithms : Algorithms := fun _ _ _ => []

def byteSymbols : List Text := (List.range 256).map fun n => symbol (UInt8.ofNat n)

theorem symbol_mem_byteSymbols (byte : UInt8) : symbol byte ∈ byteSymbols := by
  refine mem_map.mpr ⟨byte.toNat, mem_range.mpr byte.toNat_lt, ?_⟩
  rw [UInt8.ofNat_toNat]

theorem length_byteSymbols : byteSymbols.length = 256 := by simp [byteSymbols]

/-- The symbols of all bytes and the texts of `ab` and `cd`. -/
def sampleTexts : List Text :=
  byteSymbols ++ [symbol 97 ++ symbol 98, symbol 99 ++ symbol 100]

theorem length_sampleTexts : sampleTexts.length = 258 := by
  rw [sampleTexts, length_append, length_byteSymbols]
  rfl

/-- Irreducible, as nothing should compute it. -/
@[irreducible] def sampleVocab : Vocab := ({} : Vocab).addTokens sampleTexts

theorem sampleVocab_built : sampleVocab.Built := by
  unfold sampleVocab
  exact Vocab.Built.empty.addTokens sampleTexts

theorem sampleVocab_small : sampleVocab.records.length ≤ Vocab.kMaxRecords := by
  have hlength := (Vocab.addTokens_length {} sampleTexts).2
  rw [length_sampleTexts] at hlength
  unfold sampleVocab
  exact Nat.le_trans hlength (by decide)

theorem sampleVocab_found {text : Text} (hmem : text ∈ sampleTexts) (hne : text ≠ []) :
    sampleVocab.findId text ≠ kInvalidToken := by
  obtain ⟨i, -, hlt, hfind⟩ := Vocab.addTokens_findId {} hmem hne
  rw [length_sampleTexts] at hlt
  unfold sampleVocab
  rw [hfind]
  exact Vocab.ofNat_valid (Nat.lt_of_lt_of_le hlt (by decide))

def sampleToken (merges : List (Text × Text)) : IToken where
  tokenType := .BPE
  vocab := sampleVocab
  byteEncoding := .Gpt2
  splitPattern := .GPT2
  merges := merges

theorem sample_byteLevel (merges : List (Text × Text)) : ByteLevel (sampleToken merges) where
  bpe := rfl
  gpt2 := rfl
  built := sampleVocab_built
  bytes byte := sampleVocab_found (mem_append_left _ (symbol_mem_byteSymbols byte))
    (Gpt2ByteEncoder.symbol_ne_nil byte)
  nameless := rfl
  noBos := rfl
  noEos := rfl
  noPrefix := rfl

/-- What the sample description is configured to. -/
def sampleJob (merges : List (Text × Text)) : JobToken where
  token := sampleToken merges
  splitter := ⟨none⟩
  algorithm := .bpe (({} : Bpe).setMergeRules (resolveMerges sampleVocab merges))

theorem sample_configured (merges : List (Text × Text)) :
    configure noRegex (sampleToken merges) = some (sampleJob merges) := rfl

/-- Bytes that are not UTF-8 around a merged pair. -/
theorem decode_encode_sample : ∃ ids,
    encode noRegex noAlgorithms (sampleJob [(symbol 97, symbol 98)]) [255, 97, 98, 0] = some ids ∧
      (sampleJob [(symbol 97, symbol 98)]).decode ids = [255, 97, 98, 0] :=
  decode_encode_text (sample_byteLevel _) (sample_configured _) sampleVocab_small
    (Nat.le_trans (length_filterMap_le _ _) (by decide)) noAlgorithms _

/-- One merge more than there are ranks. -/
@[irreducible] def wrappingMerges : List (Text × Text) :=
  List.replicate (2 ^ 32) (symbol 97, symbol 98) ++ [(symbol 99, symbol 100)]

theorem symbol_found (byte : UInt8) : sampleVocab.findId (symbol byte) ≠ kInvalidToken :=
  sampleVocab_found (mem_append_left _ (symbol_mem_byteSymbols byte))
    (Gpt2ByteEncoder.symbol_ne_nil byte)

theorem pair_found {a b : UInt8} (hmem : symbol a ++ symbol b ∈ sampleTexts) :
    sampleVocab.findId (symbol a ++ symbol b) ≠ kInvalidToken :=
  sampleVocab_found hmem fun hnil => Gpt2ByteEncoder.symbol_ne_nil a (append_eq_nil_iff.mp hnil).1

theorem ab_mem : symbol 97 ++ symbol 98 ∈ sampleTexts := mem_append_right _ (by simp)

theorem cd_mem : symbol 99 ++ symbol 100 ∈ sampleTexts := mem_append_right _ (by simp)

/-- The rule that merges the symbols of two bytes. -/
def pairRule (a b : UInt8) : MergeRule :=
  ⟨sampleVocab.findId (symbol a), sampleVocab.findId (symbol b), sampleVocab.findId (symbol a ++ symbol b)⟩

theorem resolveMerge_pair {a b : UInt8} (hmem : symbol a ++ symbol b ∈ sampleTexts) :
    resolveMerge sampleVocab (symbol a, symbol b) = some (pairRule a b) := by
  simp only [resolveMerge, pairRule]
  rw [if_neg (not_or.mpr ⟨symbol_found a, symbol_found b⟩), if_neg (pair_found hmem)]

theorem resolve_wrappingMerges :
    resolveMerges sampleVocab wrappingMerges =
      List.replicate (2 ^ 32) (pairRule 97 98) ++ [pairRule 99 100] := by
  unfold resolveMerges wrappingMerges
  rw [filterMap_append, filterMap_replicate_of_some (resolveMerge_pair ab_mem),
    filterMap_cons_some (resolveMerge_pair cd_mem), filterMap_nil]

/-- A description with too many merges reads `cd` back as `ab`. -/
theorem wrapping_not_lossless :
    ByteLevel (sampleToken wrappingMerges) ∧
      configure noRegex (sampleToken wrappingMerges) = some (sampleJob wrappingMerges) ∧
      ∃ ids, encode noRegex noAlgorithms (sampleJob wrappingMerges) [99, 100] = some ids ∧
        (sampleJob wrappingMerges).decode ids = [97, 98] := by
  refine ⟨sample_byteLevel _, sample_configured _, [(pairRule 97 98).newId], ?_, ?_⟩
  · have hmerged := (Bpe.applyMerges_wrapped
      (Bpe.ruleFor_append_replicate (pairRule 97 98) (pairRule 99 100))
      (Bpe.getElem?_replicate_append (pairRule 97 98) (pairRule 99 100))).1
    rw [← resolve_wrappingMerges] at hmerged
    have hsymbols : encodeSymbols noAlgorithms (sampleJob wrappingMerges)
        ((sampleJob wrappingMerges).encodeBytes [99, 100]) = some [(pairRule 97 98).newId] := hmerged
    have hchunks : chunks noRegex (sampleJob wrappingMerges) [99, 100] = [[99, 100]] := rfl
    rw [(sample_byteLevel wrappingMerges).encode_eq (sample_configured wrappingMerges), hchunks]
    simp [encodeChunks, hsymbols]
  · have hspells : Spells sampleVocab [(pairRule 97 98).newId] [97, 98] := by
      refine ⟨[[97, 98]], by simp, ?_, rfl⟩
      rw [map_singleton, pairRule,
        (sampleVocab_built.consistent sampleVocab_small).tokenText_findId (pair_found ab_mem)]
      simp [Gpt2ByteEncoder.encode]
    exact decode_spells rfl hspells

/-- The token with the highest id there is, and the symbols of all bytes behind it. -/
@[irreducible] def largeVocab : Vocab :=
  (({} : Vocab).setToken 2147483647 [120] 0 .Normal).addTokens byteSymbols

theorem largeVocab_built : largeVocab.Built := by
  unfold largeVocab
  exact (Vocab.Built.empty.setToken 2147483647 [120] 0 .Normal).addTokens byteSymbols

theorem largeVocab_negative (byte : UInt8) :
    largeVocab.findId (symbol byte) < 0 ∧ largeVocab.findId (symbol byte) ≠ kInvalidToken := by
  obtain ⟨i, hle, hlt, hfind⟩ := Vocab.addTokens_findId
    (({} : Vocab).setToken 2147483647 [120] 0 .Normal) (symbol_mem_byteSymbols byte)
    (Gpt2ByteEncoder.symbol_ne_nil byte)
  have hlength : (({} : Vocab).setToken 2147483647 [120] 0 .Normal).records.length =
      Vocab.kMaxRecords := Vocab.setToken_empty_length (by decide) (by decide) 0 .Normal
  rw [hlength] at hle hlt
  rw [length_byteSymbols] at hlt
  unfold largeVocab
  rw [hfind]
  exact Vocab.ofNat_negative hle (Nat.lt_trans hlt (by decide))

def largeToken : IToken where
  tokenType := .BPE
  vocab := largeVocab
  byteEncoding := .Gpt2
  splitPattern := .GPT2

def largeJob : JobToken where
  token := largeToken
  splitter := ⟨none⟩
  algorithm := .bpe (({} : Bpe).setMergeRules [])

theorem large_byteLevel : ByteLevel largeToken where
  bpe := rfl
  gpt2 := rfl
  built := largeVocab_built
  bytes byte := (largeVocab_negative byte).2
  nameless := rfl
  noBos := rfl
  noEos := rfl
  noPrefix := rfl

/-- A description with more records than ids reads every byte back as nothing. -/
theorem large_not_lossless :
    ByteLevel largeToken ∧ configure noRegex largeToken = some largeJob ∧
      ∃ ids, encode noRegex noAlgorithms largeJob [97] = some ids ∧ largeJob.decode ids = [] := by
  refine ⟨large_byteLevel, rfl, [largeVocab.findId (symbol 97)], ?_, ?_⟩
  · have hsymbols : encodeSymbols noAlgorithms largeJob (largeJob.encodeBytes [97]) =
        some [largeVocab.findId (symbol 97)] := rfl
    have hchunks : chunks noRegex largeJob [97] = [[97]] := rfl
    have hconfigured : configure noRegex largeToken = some largeJob := rfl
    rw [large_byteLevel.encode_eq hconfigured, hchunks]
    simp [encodeChunks, hsymbols]
  · have htext : largeVocab.tokenText (largeVocab.findId (symbol 97)) = [] :=
      Vocab.tokenText_negative _ (largeVocab_negative 97).1
    have hsymbols : largeJob.decodeSymbols [largeVocab.findId (symbol 97)] = [] := by
      rw [decodeSymbols, map_singleton]
      simp only [largeJob, largeToken, htext]
      rfl
    simp only [decode, hsymbols]
    rfl

/-- Neither limit can be left out. -/
theorem decode_encode_limits :
    (∃ token job, ByteLevel token ∧ configure noRegex token = some job ∧
      ∃ ids, encode noRegex noAlgorithms job [99, 100] = some ids ∧ job.decode ids ≠ [99, 100]) ∧
    ∃ token job, ByteLevel token ∧ token.merges = [] ∧ configure noRegex token = some job ∧
      ∃ ids, encode noRegex noAlgorithms job [97] = some ids ∧ job.decode ids ≠ [97] := by
  obtain ⟨hlevel, hconfigured, ids, hids, hdecode⟩ := wrapping_not_lossless
  obtain ⟨hlevel', hconfigured', ids', hids', hdecode'⟩ := large_not_lossless
  refine ⟨⟨_, _, hlevel, hconfigured, ids, hids, ?_⟩, ⟨_, _, hlevel', rfl, hconfigured', ids', hids', ?_⟩⟩
  · rw [hdecode]
    decide
  · rw [hdecode']
    decide

end JobToken

end JobTokenizer
