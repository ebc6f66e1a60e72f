import Mathlib.Algebra.Order.BigOperators.Group.List
import OddBuilder.Library.LittleEndian
import OddBuilder.Token.Runtime

/-!
# The binary provider

Loading of the binary tokenizer format, and the format itself. The provider keeps
the merges in a member of its own that hides the one of the base class, and the
runtime reads the base class.
-/

namespace JobTokenizer

open List PairMerging LittleEndian

/-- Binary files are lists of bytes. -/
abbrev Buffer : Type := List UInt8

namespace BufferReader

/-- `readString`, and `read` of a value of `length` bytes before it is looked at. -/
def readString (input : Buffer) (length : Nat) : Option (Buffer × Buffer) :=
  if input.length < length then none else some (input.take length, input.drop length)

/-- `read` of an unsigned integer. -/
def read (width : Nat) (input : Buffer) : Option (Nat × Buffer) := do
  let (bytes, input) ← readString input width
  some (LittleEndian.decode bytes, input)

theorem readString_append {text rest : Buffer} {length : Nat} (h : text.length = length) :
    readString (text ++ rest) length = some (text, rest) := by
  subst h
  simp [readString]

theorem read_append (width value : Nat) (rest : Buffer) :
    read width (encode width value ++ rest) = some (value % 256 ^ width, rest) := by
  have hbytes : readString (encode width value ++ rest) width =
      some (encode width value, rest) :=
    readString_append (length_encode width value)
  simp [read, hbytes, decode_encode]

theorem read_small {width value : Nat} (h : value < 256 ^ width) (rest : Buffer) :
    read width (encode width value ++ rest) = some (value, rest) := by
  rw [read_append, Nat.mod_eq_of_lt h]

end BufferReader

/-- The canonical ids in the order of the header. -/
def headerOrder : List SpecialTokenType :=
  [.bos, .eos, .eot, .pad, .unk, .mask, .cls, .sep, .prefixed, .suffixed, .middle]

structure BinaryHeader where
  magic : Nat
  vocabSize : Nat
  mergesSize : Nat
  chatTemplateLen : Nat
  ids : List TokenId
  version : Nat
  modelType : Nat
  splitPattern : Nat
  flags : Nat

namespace BinaryHeader

def readIds : Nat → Buffer → Option (List TokenId × Buffer)
  | 0, input => some ([], input)
  | count + 1, input => do
    let (id, input) ← BufferReader.read 4 input
    let (ids, input) ← readIds count input
    some (Int32.ofNat id :: ids, input)

/-- The header field by field; its bytes have no padding. -/
def read (input : Buffer) : Option (BinaryHeader × Buffer) := do
  let (magic, input) ← BufferReader.read 4 input
  let (vocabSize, input) ← BufferReader.read 4 input
  let (mergesSize, input) ← BufferReader.read 4 input
  let (chatTemplateLen, input) ← BufferReader.read 4 input
  let (ids, input) ← readIds headerOrder.length input
  let (version, input) ← BufferReader.read 1 input
  let (modelType, input) ← BufferReader.read 1 input
  let (splitPattern, input) ← BufferReader.read 1 input
  let (flags, input) ← BufferReader.read 1 input
  some (⟨magic, vocabSize, mergesSize, chatTemplateLen, ids, version, modelType, splitPattern, flags⟩,
    input)

def writeIds (ids : List TokenId) : Buffer :=
  ids.flatMap fun id => LittleEndian.encode 4 id.toUInt32.toNat

def write (header : BinaryHeader) : Buffer :=
  LittleEndian.encode 4 header.magic ++ (LittleEndian.encode 4 header.vocabSize ++
    (LittleEndian.encode 4 header.mergesSize ++ (LittleEndian.encode 4 header.chatTemplateLen ++
      (writeIds header.ids ++ (LittleEndian.encode 1 header.version ++
        (LittleEndian.encode 1 header.modelType ++ (LittleEndian.encode 1 header.splitPattern ++
          LittleEndian.encode 1 header.flags)))))))

/-- Every field fits its width, and there is an id for every kind. -/
structure Fits (header : BinaryHeader) : Prop where
  magic : header.magic < 2 ^ 32
  vocabSize : header.vocabSize < 2 ^ 32
  mergesSize : header.mergesSize < 2 ^ 32
  chatTemplateLen : header.chatTemplateLen < 2 ^ 32
  ids : header.ids.length = headerOrder.length
  version : header.version < 2 ^ 8
  modelType : header.modelType < 2 ^ 8
  splitPattern : header.splitPattern < 2 ^ 8
  flags : header.flags < 2 ^ 8

theorem readIds_writeIds (ids : List TokenId) (rest : Buffer) :
    readIds ids.length (writeIds ids ++ rest) = some (ids, rest) := by
  induction ids with
  | nil => rfl
  | cons id ids ih =>
    have hid : id.toUInt32.toNat < 256 ^ 4 := id.toUInt32.toNat_lt
    have hback : Int32.ofNat id.toUInt32.toNat = id := by
      apply Int32.toBitVec.inj
      have hbits : BitVec.ofNat 32 id.toBitVec.toNat = id.toBitVec := by
        rw [BitVec.ofNat_toNat, BitVec.setWidth_eq]
      exact hbits
    have hstep : writeIds (id :: ids) ++ rest =
        encode 4 id.toUInt32.toNat ++ (writeIds ids ++ rest) := by
      simp [writeIds]
    simp [readIds, hstep, BufferReader.read_small hid, ih, hback]

theorem read_serialize {header : BinaryHeader} (fits : header.Fits) (rest : Buffer) :
    read (header.write ++ rest) = some (header, rest) := by
  have hword : (2 : Nat) ^ 32 = 256 ^ 4 := by decide
  have hbyte : (2 : Nat) ^ 8 = 256 ^ 1 := by decide
  obtain ⟨hmagic, hvocab, hmerges, hchat, hids, hversion, hmodel, hsplit, hflags⟩ := fits
  rw [hword] at hmagic hvocab hmerges hchat
  rw [hbyte] at hversion hmodel hsplit hflags
  simp [read, write, BufferReader.read_small hmagic,
    BufferReader.read_small hvocab, BufferReader.read_small hmerges, BufferReader.read_small hchat,
    ← hids, readIds_writeIds, BufferReader.read_small hversion, BufferReader.read_small hmodel,
    BufferReader.read_small hsplit, BufferReader.read_small hflags]

end BinaryHeader

/-- A token as it stands in the file. -/
structure ParsedToken where
  text : Text
  score : UInt32
  rawType : Nat
deriving DecidableEq

/-- `mapTokenType` of the byte in the file. -/
def mapTokenType : Nat → StructuralType
  | 0 => .Normal
  | 1 => .UserDefined
  | 2 => .Control
  | 3 => .Byte
  | 4 => .Unused
  | _ => .Normal

/-- `static_cast` of the byte in the file; a byte without a name is handled as the unknown type. -/
def tokenTypeOf : Nat → TokenType
  | 1 => .BPE
  | 2 => .WordPiece
  | 3 => .Unigram
  | 4 => .WordLevel
  | _ => .Unknown

/-- `static_cast` of the byte in the file; a byte without a name is handled as no pattern. -/
def splitPatternOf : Nat → SplitPattern
  | 1 => .GPT2
  | 2 => .R50K
  | 3 => .P50K
  | 4 => .P50KEdit
  | 5 => .CL100K
  | 6 => .O200K
  | 7 => .O200KHarmony
  | 8 => .GPT4
  | 9 => .LLaMA3
  | 10 => .Qwen2
  | 11 => .Custom
  | _ => .None

/-- A `BinaryToken`: the base class and, beside it, a version and merges of its own. -/
structure BinaryToken where
  base : IToken
  version : Nat
  merges : List (Text × Text)

namespace BinaryToken

variable {other : IToken} {data : TokenData}

def MAGIC : Nat := 0x4A4F4256

def CURRENT_VERSION : Nat := 2

def readTokens : Nat → Buffer → Option (List ParsedToken × Buffer)
  | 0, input => some ([], input)
  | count + 1, input => do
    let (tokenLength, input) ← BufferReader.read 2 input
    let (text, input) ← BufferReader.readString input tokenLength
    let (score, input) ← BufferReader.read 4 input
    let (rawType, input) ← BufferReader.read 1 input
    let (tokens, input) ← readTokens count input
    some (⟨text, UInt32.ofNat score, rawType⟩ :: tokens, input)

def readMerges : Nat → Buffer → Option (List (Text × Text) × Buffer)
  | 0, input => some ([], input)
  | count + 1, input => do
    let (leftLength, input) ← BufferReader.read 2 input
    let (left, input) ← BufferReader.readString input leftLength
    let (rightLength, input) ← BufferReader.read 2 input
    let (right, input) ← BufferReader.readString input rightLength
    let (merges, input) ← readMerges count input
    some ((left, right) :: merges, input)

/-- The loop that commits the tokens to the vocabulary, from an index on. -/
def commitTokens (vocab : Vocab) (i : Nat) : List ParsedToken → Vocab
  | [] => vocab
  | token :: tokens =>
    commitTokens ((vocab.setToken (Int32.ofNat i) token.text token.score .Normal).setRecordType i
      (mapTokenType token.rawType)) (i + 1) tokens

/-- The lambda `tokenId`: an id that is no index of the vocabulary becomes invalid. -/
def tokenId (vocab : Vocab) (id : TokenId) : TokenId :=
  if id < 0 then kInvalidToken
  else if vocab.records.length ≤ Vocab.index id then kInvalidToken
  else id

def commitIds (vocab : Vocab) (special : SpecialTokens) : List (SpecialTokenType × TokenId) → SpecialTokens
  | [] => special
  | (type, id) :: ids => commitIds vocab (special.setCanonicalId type (tokenId vocab id)) ids

/-- The state that is committed once the whole file has been read. The merges go to the member of
the derived class; the base class keeps the empty list that `clear` left. -/
def commit (header : BinaryHeader) (chatTemplate : Text) (tokens : List ParsedToken)
    (merges : List (Text × Text)) : BinaryToken :=
  let vocab := commitTokens {} 0 tokens
  { version := header.version
    merges := merges
    base :=
      { tokenType := tokenTypeOf header.modelType
        splitPattern := splitPatternOf header.splitPattern
        byteFallback := header.flags.testBit 0
        addPrefixSpace := header.flags.testBit 1
        addBosToken := header.flags.testBit 2
        addEosToken := header.flags.testBit 3
        chatTemplate := chatTemplate
        vocab := vocab
        special := commitIds vocab {} (headerOrder.zip header.ids) } }

def load (buffer : Buffer) : Option BinaryToken := do
  let (header, input) ← BinaryHeader.read buffer
  if header.magic ≠ MAGIC then none
  else if header.version ≠ CURRENT_VERSION then none
  else
    let (chatTemplate, input) ← BufferReader.readString input header.chatTemplateLen
    let (tokens, input) ← readTokens header.vocabSize input
    let (merges, _) ← readMerges header.mergesSize input
    let token := commit header chatTemplate tokens merges
    if 0 < token.base.vocab.records.length then some token else none

/-- What a binary file describes: a vocabulary without gaps, merges and options, all of it within
the widths of the format. -/
structure TokenData where
  tokens : List ParsedToken
  merges : List (Text × Text)
  ids : List TokenId
  chatTemplate : Text
  modelType : Nat
  splitPattern : Nat
  flags : Nat
  hasTokens : tokens ≠ []
  tokensFit : tokens.length ≤ Vocab.kMaxRecords
  tokenFits : ∀ token ∈ tokens, token.text ≠ [] ∧ token.text.length < 2 ^ 16 ∧ token.rawType < 2 ^ 8
  mergesFit : merges.length < 2 ^ 32
  mergeFits : ∀ texts ∈ merges, texts.1.length < 2 ^ 16 ∧ texts.2.length < 2 ^ 16
  idsFit : ids.length = headerOrder.length
  chatTemplateFits : chatTemplate.length < 2 ^ 32
  modelTypeFits : modelType < 2 ^ 8
  splitPatternFits : splitPattern < 2 ^ 8
  flagsFit : flags < 2 ^ 8

def writeToken (token : ParsedToken) : Buffer :=
  LittleEndian.encode 2 token.text.length ++ (token.text ++
    (LittleEndian.encode 4 token.score.toNat ++ LittleEndian.encode 1 token.rawType))

def writeMerge (texts : Text × Text) : Buffer :=
  LittleEndian.encode 2 texts.1.length ++ (texts.1 ++
    (LittleEndian.encode 2 texts.2.length ++ texts.2))

def headerOf (data : TokenData) : BinaryHeader where
  magic := MAGIC
  vocabSize := data.tokens.length
  mergesSize := data.merges.length
  chatTemplateLen := data.chatTemplate.length
  ids := data.ids
  version := CURRENT_VERSION
  modelType := data.modelType
  splitPattern := data.splitPattern
  flags := data.flags

/-- The binary encoding of the data. -/
def make (data : TokenData) : Buffer :=
  (headerOf data).write ++ (data.chatTemplate ++
    (data.tokens.flatMap writeToken ++ data.merges.flatMap writeMerge))

theorem readTokens_write (tokens : List ParsedToken) (rest : Buffer)
    (fit : ∀ token ∈ tokens, token.text.length < 2 ^ 16 ∧ token.rawType < 2 ^ 8) :
    readTokens tokens.length (tokens.flatMap writeToken ++ rest) = some (tokens, rest) := by
  induction tokens with
  | nil => rfl
  | cons token tokens ih =>
    obtain ⟨hlength, htype⟩ := fit token (mem_cons_self ..)
    have htail := ih fun token htoken => fit token (mem_cons_of_mem _ htoken)
    have hscore : token.score.toNat < 256 ^ 4 := token.score.toNat_lt
    have hlength : token.text.length < 256 ^ 2 := hlength
    have htype : token.rawType < 256 ^ 1 := htype
    simp [writeToken, readTokens,
      BufferReader.read_small hlength, BufferReader.readString_append rfl,
      BufferReader.read_small hscore, BufferReader.read_small htype, htail]

theorem readMerges_write (merges : List (Text × Text)) (rest : Buffer)
    (fit : ∀ texts ∈ merges, texts.1.length < 2 ^ 16 ∧ texts.2.length < 2 ^ 16) :
    readMerges merges.length (merges.flatMap writeMerge ++ rest) = some (merges, rest) := by
  induction merges with
  | nil => rfl
  | cons texts merges ih =>
    obtain ⟨hleft, hright⟩ := fit texts (mem_cons_self ..)
    have htail := ih fun texts htexts => fit texts (mem_cons_of_mem _ htexts)
    have hleft : texts.1.length < 256 ^ 2 := hleft
    have hright : texts.2.length < 256 ^ 2 := hright
    simp [writeMerge, readMerges, BufferReader.read_small hleft, BufferReader.read_small hright,
      BufferReader.readString_append rfl, htail]

theorem commitTokens_length_le (vocab : Vocab) (i : Nat) (tokens : List ParsedToken) :
    vocab.records.length ≤ (commitTokens vocab i tokens).records.length := by
  induction tokens generalizing vocab i with
  | nil => exact Nat.le_refl _
  | cons token tokens ih =>
    refine Nat.le_trans ?_ (ih _ _)
    rw [Vocab.setRecordType, length_modify]
    exact Vocab.setToken_length_le _ _ _ _ _

/-- What the data is loaded to. -/
def loaded (data : TokenData) : BinaryToken :=
  commit (headerOf data) data.chatTemplate data.tokens data.merges

theorem loaded_records (data : TokenData) : 0 < (loaded data).base.vocab.records.length := by
  obtain ⟨token, tokens, htokens⟩ := exists_cons_of_ne_nil data.hasTokens
  have hne := (data.tokenFits token (by rw [htokens]; exact mem_cons_self ..)).1
  have hlength : (({} : Vocab).setToken (Int32.ofNat 0) token.text token.score .Normal).records.length =
      Vocab.index (Int32.ofNat 0) + 1 := Vocab.setToken_empty_length (by decide) hne token.score .Normal
  have hgrows := commitTokens_length_le
    ((({} : Vocab).setToken (Int32.ofNat 0) token.text token.score .Normal).setRecordType 0
      (mapTokenType token.rawType)) 1 tokens
  rw [Vocab.setRecordType, length_modify, hlength] at hgrows
  simp only [loaded, htokens]
  exact Nat.lt_of_lt_of_le (Nat.succ_pos _) hgrows

/-- Loading reads every encoding back. -/
theorem load_make (data : TokenData) : load (make data) = some (loaded data) := by
  have hfits : (headerOf data).Fits := by
    refine ⟨show MAGIC < 2 ^ 32 by decide, ?_, data.mergesFit, data.chatTemplateFits, data.idsFit,
      show CURRENT_VERSION < 2 ^ 8 by decide, data.modelTypeFits, data.splitPatternFits, data.flagsFit⟩
    exact Nat.lt_of_le_of_lt data.tokensFit (by decide)
  have hmerges : readMerges data.merges.length (data.merges.flatMap writeMerge) =
      some (data.merges, []) := by
    have hread := readMerges_write data.merges [] data.mergeFits
    rwa [append_nil] at hread
  have htokens := readTokens_write data.tokens (data.merges.flatMap writeMerge)
    fun token htoken => (data.tokenFits token htoken).2
  have hchat : BufferReader.readString (data.chatTemplate ++
      (data.tokens.flatMap writeToken ++ data.merges.flatMap writeMerge))
      (headerOf data).chatTemplateLen = some (data.chatTemplate, _) :=
    BufferReader.readString_append rfl
  simp only [load, make, BinaryHeader.read_serialize hfits, Option.bind_eq_bind]
  simp only [hchat, Option.bind_some]
  rw [show (headerOf data).vocabSize = data.tokens.length from rfl, htokens]
  simp only [Option.bind_some]
  rw [show (headerOf data).mergesSize = data.merges.length from rfl, hmerges]
  exact if_pos (loaded_records data)

theorem setCanonicalId_nameless {special : SpecialTokens} (h : special.idToName = ∅)
    (type : SpecialTokenType) (id : TokenId) : (special.setCanonicalId type id).idToName = ∅ := by
  unfold SpecialTokens.setCanonicalId
  dsimp only
  split_ifs <;> exact h

theorem commitIds_nameless (vocab : Vocab) (ids : List (SpecialTokenType × TokenId))
    {special : SpecialTokens} (h : special.idToName = ∅) :
    (commitIds vocab special ids).idToName = ∅ := by
  induction ids generalizing special with
  | nil => exact h
  | cons entry ids ih => exact ih (setCanonicalId_nameless h entry.1 (tokenId vocab entry.2))

/-- Another provider that describes the data: it agrees with what is loaded in everything that
encoding reads, and its merges are where the runtime looks for them. -/
structure Describes (other : IToken) (data : TokenData) : Prop where
  tokenType : other.tokenType = (loaded data).base.tokenType
  vocab : other.vocab = (loaded data).base.vocab
  special : other.special = (loaded data).base.special
  splitPattern : other.splitPattern = (loaded data).base.splitPattern
  customSplitPattern : other.customSplitPattern = (loaded data).base.customSplitPattern
  addPrefixSpace : other.addPrefixSpace = (loaded data).base.addPrefixSpace
  byteEncoding : other.byteEncoding = (loaded data).base.byteEncoding
  addBosToken : other.addBosToken = (loaded data).base.addBosToken
  addEosToken : other.addEosToken = (loaded data).base.addEosToken
  merges : other.merges = data.merges

/-- Some adjacent pair of symbols in a chunk of the text has a merge rule. -/
def MergesIn (regex : Regex) (job : JobToken) (text : Text) : Prop :=
  ∃ chunk ∈ JobToken.chunks regex job text, ∃ u a b v,
    (job.encodeBytes chunk).map job.token.vocab.findId = u ++ a :: b :: v ∧
      Bpe.ruleFor (resolveMerges job.token.vocab job.token.merges) a b ≠ none

/-- The ids of a chunk before any merge. -/
def initialIds (job : JobToken) (chunk : Text) : List TokenId :=
  (job.encodeBytes chunk).map job.token.vocab.findId

theorem tableRule_ne_none {rules : List MergeRule} {a b : TokenId} (h : Bpe.ruleFor rules a b ≠ none) :
    (Bpe.rebuildAccelerators rules).tableRule a b ≠ none := by
  obtain ⟨found, hfound⟩ := Option.ne_none_iff_exists'.mp h
  have hlookup := Bpe.lookup_eq rules a b
  rw [hfound] at hlookup
  obtain ⟨newId, htable⟩ := Bpe.tableRule_of_lookup hlookup
  rw [htable]
  exact Option.some_ne_none _

theorem tableRule_none {rules : List MergeRule} {a b : TokenId} (h : Bpe.ruleFor rules a b = none) :
    (Bpe.rebuildAccelerators rules).tableRule a b = none := by
  have hlookup := Bpe.lookup_eq rules a b
  rw [h] at hlookup
  simp [Bpe.tableRule, hlookup]

section Chunks

variable {regex : Regex} {algorithms : Algorithms}

/-- Chunk by chunk, a byte-pair runtime answers the merged ids. -/
theorem encodeChunks_bpe (algorithms : Algorithms) {job : JobToken} {rules : List MergeRule}
    (halgorithm : job.algorithm = .bpe (({} : Bpe).setMergeRules rules)) (chunks : List Text) :
    JobToken.encodeChunks algorithms job chunks =
      some (chunks.map fun chunk =>
        merge (Bpe.rebuildAccelerators rules).tableRule (initialIds job chunk)).flatten := by
  have hchunk : ∀ chunk, JobToken.encodeSymbols algorithms job (job.encodeBytes chunk) =
      some (merge (Bpe.rebuildAccelerators rules).tableRule (initialIds job chunk)) := by
    intro chunk
    simp only [JobToken.encodeSymbols, halgorithm]
    exact Bpe.applyMerges_table (.setMergeRules rules .new) _ (Nat.le_refl _)
  have hall : (chunks.mapM fun chunk => JobToken.encodeSymbols algorithms job (job.encodeBytes chunk)) =
      some (chunks.map fun chunk =>
        merge (Bpe.rebuildAccelerators rules).tableRule (initialIds job chunk)) := by
    induction chunks with
    | nil => rfl
    | cons chunk chunks ih =>
      rw [mapM_cons, hchunk, ih]
      rfl
  rw [JobToken.encodeChunks, hall, Option.map_some]

theorem encodeChunks_other (algorithms : Algorithms) {job : JobToken} {type : TokenType}
    (halgorithm : job.algorithm = .other type) (chunks : List Text) :
    JobToken.encodeChunks algorithms job chunks =
      some (chunks.map fun chunk =>
        algorithms type job.token.vocab (job.encodeBytes chunk)).flatten := by
  have hall : (chunks.mapM fun chunk => JobToken.encodeSymbols algorithms job (job.encodeBytes chunk)) =
      some (chunks.map fun chunk => algorithms type job.token.vocab (job.encodeBytes chunk)) := by
    induction chunks with
    | nil => rfl
    | cons chunk chunks ih =>
      rw [mapM_cons, ih]
      simp only [JobToken.encodeSymbols, halgorithm]
      rfl
  rw [JobToken.encodeChunks, hall, Option.map_some]

/-- Merged chunks, one after the other, are the unmerged ones only when nothing was merged. -/
theorem merged_eq_iff (rule : TokenId → TokenId → Option (Nat × TokenId)) (parts : List (List TokenId)) :
    (parts.map (merge rule)).flatten = parts.flatten ↔
      ∀ part ∈ parts, ∀ u a b v, part = u ++ a :: b :: v → rule a b = none := by
  constructor
  · intro heq part hpart u a b v hsplit
    by_contra hrule
    have hlengths := congrArg List.length heq
    simp only [length_flatten, map_map] at hlengths
    have hlt : (parts.map (List.length ∘ merge rule)).sum < (parts.map List.length).sum := by
      refine sum_lt_sum _ _ ?_ ⟨part, hpart, ?_⟩
      · intro other _
        exact merge_length_le other
      · rw [hsplit]
        exact merge_length_lt hrule
    omega
  · intro hnone
    congr 1
    conv_rhs => rw [← map_id parts]
    apply map_congr_left
    intro part hpart
    exact merge_of_none (best_eq_none (hnone part hpart))

/-- Two descriptions that agree in what encoding reads besides the merges give the same chunks. -/
theorem chunks_congr {job job' : JobToken} (hsplitter : job.splitter = job'.splitter)
    (haddPrefix : job.token.addPrefixSpace = job'.token.addPrefixSpace) (text : Text) :
    JobToken.chunks regex job text = JobToken.chunks regex job' text := by
  simp [JobToken.chunks, hsplitter, haddPrefix]

theorem initialIds_congr {job job' : JobToken} (hvocab : job.token.vocab = job'.token.vocab)
    (hencoding : job.token.byteEncoding = job'.token.byteEncoding) (chunk : Text) :
    initialIds job chunk = initialIds job' chunk := by
  simp [initialIds, JobToken.encodeBytes, hvocab, hencoding]

/-- The ids around the chunks: the begin and the end token where they are wanted. -/
def wrapIds (token : IToken) (output : List TokenId) : List TokenId :=
  let bosId := token.special.canonical .bos
  let eosId := token.special.canonical .eos
  let output := if token.addBosToken && bosId != kInvalidToken then bosId :: output else output
  if token.addEosToken && eosId != kInvalidToken then output ++ [eosId] else output

theorem encode_wrap {job : JobToken} (nameless : job.token.special.idToName = ∅) {text : Text}
    {output : List TokenId}
    (houtput : JobToken.encodeChunks algorithms job (JobToken.chunks regex job text) = some output) :
    JobToken.encode regex algorithms job text = some (wrapIds job.token output) := by
  simp [JobToken.encode, JobToken.encodeLoop_nameless nameless, JobToken.encodeNormalText_eq,
    houtput, wrapIds]

theorem wrapIds_inj {token : IToken} {a b : List TokenId} :
    wrapIds token a = wrapIds token b ↔ a = b := by
  simp only [wrapIds]
  split_ifs <;> simp

end Chunks

variable {regex : Regex} {algorithms : Algorithms}

theorem Describes.nameless (h : Describes other data) : other.special.idToName = ∅ := by
  rw [h.special]
  exact commitIds_nameless _ _ rfl

theorem Describes.configure_eq_none (h : Describes other data) :
    JobToken.configure regex (loaded data).base = none ↔ JobToken.configure regex other = none := by
  simp only [JobToken.configure, JobToken.makeAlgorithm, h.splitPattern, h.customSplitPattern, h.tokenType]
  cases (loaded data).base.tokenType <;> split_ifs <;> simp

/-- For a text, the two runtimes answer the same ids exactly when no merge applies in it. -/
theorem encode_eq_iff (h : Describes other data) {binary job : JobToken}
    (hbinary : JobToken.configure regex (loaded data).base = some binary)
    (hjob : JobToken.configure regex other = some job) (text : Text) :
    ∃ ids ids', JobToken.encode regex algorithms binary text = some ids ∧
      JobToken.encode regex algorithms job text = some ids' ∧
      (ids = ids' ↔ ¬ (other.tokenType = .BPE ∧ MergesIn regex job text)) := by
  have hnameless := h.nameless
  have hsplitters : binary.splitter = job.splitter := by
    rw [JobToken.configure_splitter hbinary, JobToken.configure_splitter hjob, h.splitPattern,
      h.customSplitPattern]
  obtain ⟨hbinaryToken, hbinaryAlgorithm⟩ := JobToken.configure_eq hbinary
  obtain ⟨rfl, halgorithm⟩ := JobToken.configure_eq hjob
  have hbinaryNameless : binary.token.special.idToName = ∅ := by
    rw [hbinaryToken, ← h.special]
    exact hnameless
  have hchunks : JobToken.chunks regex binary text = JobToken.chunks regex job text :=
    chunks_congr hsplitters (by rw [hbinaryToken, h.addPrefixSpace]) text
  have hwrap : wrapIds binary.token = wrapIds job.token := by
    funext output
    simp only [wrapIds, hbinaryToken, h.special, h.addBosToken, h.addEosToken]
  by_cases hbpe : job.token.tokenType = .BPE
  · have hmergesEmpty : (loaded data).base.merges = [] := rfl
    simp only [JobToken.makeAlgorithm, ← h.tokenType, hbpe, Option.some.injEq, hmergesEmpty,
      resolveMerges, filterMap_nil] at hbinaryAlgorithm
    simp only [JobToken.makeAlgorithm, hbpe, Option.some.injEq] at halgorithm
    have hout := encodeChunks_bpe algorithms halgorithm.symm (JobToken.chunks regex job text)
    have hbin := encodeChunks_bpe algorithms hbinaryAlgorithm.symm (JobToken.chunks regex binary text)
    refine ⟨_, _, encode_wrap hbinaryNameless hbin, encode_wrap hnameless hout, ?_⟩
    -- without rules the chunks stay as they are
    have hplain : ∀ chunk, merge (Bpe.rebuildAccelerators []).tableRule
        (initialIds binary chunk) = initialIds job chunk := by
      intro chunk
      rw [merge_of_none (best_eq_none fun _ _ _ _ _ => tableRule_none rfl)]
      exact initialIds_congr (by rw [hbinaryToken, h.vocab]) (by rw [hbinaryToken, h.byteEncoding]) chunk
    rw [hwrap, wrapIds_inj, hchunks, map_congr_left fun chunk _ => hplain chunk, eq_comm]
    have hparts := merged_eq_iff
      (Bpe.rebuildAccelerators (resolveMerges job.token.vocab job.token.merges)).tableRule
      ((JobToken.chunks regex job text).map (initialIds job))
    rw [map_map] at hparts
    refine hparts.trans ?_
    constructor
    · rintro hnone ⟨-, chunk, hchunk, u, a, b, v, hsplit, hrule⟩
      exact tableRule_ne_none hrule
        (hnone _ (mem_map.mpr ⟨chunk, hchunk, rfl⟩) u a b v hsplit)
    · intro hnot part hpart u a b v hsplit
      obtain ⟨chunk, hchunk, rfl⟩ := mem_map.mp hpart
      apply tableRule_none
      by_contra hrule
      exact hnot ⟨hbpe, chunk, hchunk, u, a, b, v, hsplit, hrule⟩
  · obtain ⟨type, hother⟩ := JobToken.makeAlgorithm_other hbpe halgorithm
    have hsame : binary.algorithm = job.algorithm := by
      have hmake := JobToken.makeAlgorithm_congr hbpe h.tokenType
      rw [hbinaryAlgorithm, halgorithm] at hmake
      exact (Option.some.inj hmake).symm
    have hout := encodeChunks_other algorithms hother (JobToken.chunks regex job text)
    have hbin := encodeChunks_other algorithms (hsame.trans hother) (JobToken.chunks regex binary text)
    refine ⟨_, _, encode_wrap hbinaryNameless hbin, encode_wrap hnameless hout, ?_⟩
    have hbytes : binary.encodeBytes = job.encodeBytes := by
      funext chunk
      simp only [JobToken.encodeBytes, hbinaryToken, h.byteEncoding]
    rw [hwrap, hchunks, hbytes, hbinaryToken, ← h.vocab]
    simp [hbpe]

/-- A text gives the same ids from the binary file and from another provider of the same data
exactly when no merge applies in it; either runtime can be configured when the other can. -/
theorem binary_encode_iff {other : IToken} {data : TokenData} (h : Describes other data)
    (text : Text) :
    ∃ token, load (make data) = some token ∧
      (JobToken.configure regex token.base = none ↔ JobToken.configure regex other = none) ∧
      ∀ binary job, JobToken.configure regex token.base = some binary →
        JobToken.configure regex other = some job →
        ∃ ids ids', JobToken.encode regex algorithms binary text = some ids ∧
          JobToken.encode regex algorithms job text = some ids' ∧
          (ids = ids' ↔ ¬ (other.tokenType = .BPE ∧ MergesIn regex job text)) :=
  ⟨loaded data, load_make data, h.configure_eq_none, fun _ _ hbinary hjob =>
    encode_eq_iff h hbinary hjob text⟩

/-- The tokens `a`, `b` and `ab` and the merge of the first two. -/
def sampleData : TokenData where
  tokens := [⟨[97], 0, 0⟩, ⟨[98], 0, 0⟩, ⟨[97, 98], 0, 0⟩]
  merges := [([97], [98])]
  ids := List.replicate 11 kInvalidToken
  chatTemplate := []
  modelType := 1
  splitPattern := 0
  flags := 0
  hasTokens := List.cons_ne_nil _ _
  tokensFit := by decide
  tokenFits := by decide
  mergesFit := by decide
  mergeFits := by decide
  idsFit := by decide
  chatTemplateFits := by decide
  modelTypeFits := by decide
  splitPatternFits := by decide
  flagsFit := by decide

/-- A provider that leaves the merges in the base class. -/
def sampleOther : IToken := { (loaded sampleData).base with merges := sampleData.merges }

theorem sampleOther_describes : Describes sampleOther sampleData :=
  ⟨rfl, rfl, rfl, rfl, rfl, rfl, rfl, rfl, rfl, rfl⟩

theorem binary_encode_iff_sample :
    ∃ token, load (make sampleData) = some token ∧
      (JobToken.configure noRegex token.base = none ↔ JobToken.configure noRegex sampleOther = none) ∧
      ∀ binary job, JobToken.configure noRegex token.base = some binary →
        JobToken.configure noRegex sampleOther = some job →
        ∃ ids ids', JobToken.encode noRegex (fun _ _ _ => []) binary [97, 98] = some ids ∧
          JobToken.encode noRegex (fun _ _ _ => []) job [97, 98] = some ids' ∧
          (ids = ids' ↔ ¬ (sampleOther.tokenType = .BPE ∧ MergesIn noRegex job [97, 98])) :=
  binary_encode_iff sampleOther_describes [97, 98]

/-- From the binary file the text `ab` is two tokens, from the other provider it is one. -/
theorem sample_encodes_differ :
    ((load (make sampleData)).bind fun token =>
      (JobToken.configure noRegex token.base).bind fun job =>
        JobToken.encode noRegex (fun _ _ _ => []) job [97, 98]) = some [0, 1] ∧
    ((JobToken.configure noRegex sampleOther).bind fun job =>
        JobToken.encode noRegex (fun _ _ _ => []) job [97, 98]) = some [2] := by
  rw [load_make]
  constructor
  · decide
  · decide

end BinaryToken

end JobTokenizer
