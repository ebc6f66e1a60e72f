import OddBuilder.Token.ByteEncoder
import OddBuilder.Token.BpeMerges

/-!
# The tokenizer runtime

What a provider describes (`IToken`), the parts that `JobToken` makes of it, and
encoding and decoding. The regex engine and the algorithms other than byte-pair
encoding are parameters: the runtime hands them a text and takes what they answer.
-/

namespace JobTokenizer

open List

inductive SpecialTokenType where
  | bos | eos | eot | pad | unk | mask | prefixed | suffixed | middle | cls | sep
deriving DecidableEq

/-- The canonical ids by kind, the ids in the order in which the set iterates, and the names. -/
structure SpecialTokens where
  canonical : SpecialTokenType → TokenId := fun _ => kInvalidToken
  specialIds : List TokenId := []
  idToName : AList (fun _ : TokenId => Text) := ∅

namespace SpecialTokens

def nameById (special : SpecialTokens) (id : TokenId) : Text := (special.idToName.lookup id).getD []

def allTypes : List SpecialTokenType :=
  [.bos, .eos, .eot, .pad, .unk, .mask, .prefixed, .suffixed, .middle, .cls, .sep]

def isCanonicalId (special : SpecialTokens) (id : TokenId) : Bool :=
  allTypes.any fun type => special.canonical type == id

def insertId (ids : List TokenId) (id : TokenId) : List TokenId :=
  if ids.contains id then ids else ids ++ [id]

/-- The setters of the canonical ids, `setBosId` and so on. -/
def setCanonicalId (special : SpecialTokens) (type : SpecialTokenType) (id : TokenId) : SpecialTokens :=
  let oldId := special.canonical type
  let special := { special with canonical := fun other => if other = type then id else special.canonical other }
  let special := if id ≠ kInvalidToken then
      { special with specialIds := insertId special.specialIds id }
    else special
  if oldId ≠ kInvalidToken ∧ ¬ special.isCanonicalId oldId ∧ (special.idToName.lookup oldId).isNone then
    { special with specialIds := special.specialIds.erase oldId }
  else special

structure Match where
  id : TokenId
  position : Nat
  length : Nat

/-- `std::string_view::find` from an offset on. -/
def find (text name : Text) (offset : Nat) : Option Nat :=
  ((List.range (text.length + 1)).filter fun p => decide (offset ≤ p)).find? fun p =>
    name.isPrefixOf (text.drop p)

/-- The loop of `findNext`: the earliest name, and of those at one place the longest. -/
def findBest (special : SpecialTokens) (text : Text) (offset : Nat) (best : Option Match) :
    List TokenId → Option Match
  | [] => best
  | id :: ids =>
    let name := special.nameById id
    if name.isEmpty then special.findBest text offset best ids
    else
      match find text name offset with
      | none => special.findBest text offset best ids
      | some position =>
        let better := match best with
          | none => true
          | some found => position < found.position ||
              (position == found.position && name.length > found.length)
        special.findBest text offset (if better then some ⟨id, position, name.length⟩ else best) ids

def findNext (special : SpecialTokens) (text : Text) (offset : Nat) : Option Match :=
  special.findBest text offset none special.specialIds

end SpecialTokens

namespace UnicodeNormalizer

structure Options where
  addDummyPrefixSpace : Bool := false
  replaceSpacesWithMarker : Bool := false
  cleanExtraSpaces : Bool := false

def kSentencePieceSpace : Text := [0xE2, 0x96, 0x81]

def isspace (c : UInt8) : Bool := c == 32 || (9 ≤ c && c ≤ 13)

def escapeSpaces (text : Text) (prependDummySpace : Bool) : Text :=
  if text.isEmpty then (if prependDummySpace then kSentencePieceSpace else [])
  else
    (if prependDummySpace && text.head? != some 32 && !kSentencePieceSpace.isPrefixOf text then
      kSentencePieceSpace else []) ++
    text.flatMap fun c => if c == 32 then kSentencePieceSpace else [c]

/-- Every run of white space as one blank. -/
def cleanSpaces (inWhitespace : Bool) : Text → Text
  | [] => []
  | c :: text =>
    if isspace c then
      if inWhitespace then cleanSpaces true text else 32 :: cleanSpaces true text
    else c :: cleanSpaces false text

def normalize (text : Text) (options : Options) : Text :=
  if text.isEmpty then (if options.addDummyPrefixSpace then kSentencePieceSpace else [])
  else
    let normalized := if options.cleanExtraSpaces then cleanSpaces false text else text
    if options.replaceSpacesWithMarker then escapeSpaces normalized options.addDummyPrefixSpace
    else if options.addDummyPrefixSpace && !normalized.isEmpty && normalized.head? != some 32 then
      32 :: normalized
    else normalized

end UnicodeNormalizer

inductive SplitPattern where
  | None | GPT2 | R50K | P50K | P50KEdit | CL100K | O200K | O200KHarmony | GPT4 | LLaMA3 | Qwen2 | Custom
deriving DecidableEq

/-- What is handed to the regex engine: one of the named patterns, or a custom text. -/
inductive Pattern where
  | named (pattern : SplitPattern)
  | custom (text : Text)

/-- The regex engine: which patterns compile, and where the first match of a pattern stands in a
text and how long it is. A match lies in the text. -/
structure Regex where
  compiles : Pattern → Bool
  search : Pattern → Text → Option (Nat × Nat)
  inText : ∀ pattern text place length,
    search pattern text = some (place, length) → place + length ≤ text.length

/-- An engine that compiles no pattern, as the standard one does with the GPT-2 pattern. -/
def noRegex : Regex where
  compiles _ := false
  search _ _ := none
  inText _ _ _ _ h := nomatch h

/-- `none` when there is no pattern or the pattern does not compile. -/
structure RegexSplitter where
  pattern : Option Pattern

namespace RegexSplitter

def compileRegex (regex : Regex) (pattern : Pattern) : RegexSplitter :=
  ⟨if regex.compiles pattern then some pattern else none⟩

def setPattern (regex : Regex) (pattern : SplitPattern) : RegexSplitter :=
  match pattern with
  | .None => ⟨none⟩
  | .Custom => ⟨none⟩
  | pattern => compileRegex regex (.named pattern)

def setCustomPattern (regex : Regex) (text : Text) : RegexSplitter :=
  if text.isEmpty then ⟨none⟩ else compileRegex regex (.custom text)

/-- The loop of `split` on what is left of the text, for at most `turns` turns. -/
def splitLoop (regex : Regex) (pattern : Pattern) : Nat → Text → Option (List Text)
  | _, [] => some []
  | 0, _ :: _ => none
  | turns + 1, c :: text =>
    match regex.search pattern (c :: text) with
    | none => some [c :: text]
    | some (place, length) =>
      if length = 0 then (splitLoop regex pattern turns text).map ([c] :: ·)
      else
        let gap := if 0 < place then [(c :: text).take place] else []
        (splitLoop regex pattern turns ((c :: text).drop (place + length))).map fun chunks =>
          gap ++ ((c :: text).drop place).take length :: chunks

def split (regex : Regex) (splitter : RegexSplitter) (text : Text) : Option (List Text) :=
  if text.isEmpty then some []
  else
    match splitter.pattern with
    | none => some [text]
    | some pattern => splitLoop regex pattern text.length text

/-- The loop ends within as many turns as there are bytes, and the chunks are the text. -/
theorem splitLoop_flatten (regex : Regex) (pattern : Pattern) (turns : Nat) (text : Text)
    (enough : text.length ≤ turns) :
    ∃ chunks, splitLoop regex pattern turns text = some chunks ∧ chunks.flatten = text := by
  induction turns generalizing text with
  | zero =>
    obtain rfl : text = [] := length_eq_zero_iff.mp (Nat.le_zero.mp enough)
    exact ⟨[], rfl, rfl⟩
  | succ turns ih =>
    cases text with
    | nil => exact ⟨[], rfl, rfl⟩
    | cons c text =>
      simp only [length_cons] at enough
      cases hsearch : regex.search pattern (c :: text) with
      | none =>
        refine ⟨[c :: text], ?_, flatten_singleton⟩
        simp [splitLoop, hsearch]
      | some found =>
        obtain ⟨place, length⟩ := found
        by_cases hzero : length = 0
        · obtain ⟨chunks, hchunks, hflat⟩ := ih text (by omega)
          refine ⟨[c] :: chunks, ?_, ?_⟩
          · simp [splitLoop, hsearch, if_pos hzero, hchunks]
          · rw [flatten_cons, hflat]
            rfl
        · have hshort : ((c :: text).drop (place + length)).length ≤ turns := by
            rw [length_drop, length_cons]
            omega
          obtain ⟨chunks, hchunks, hflat⟩ := ih _ hshort
          refine ⟨_, by simp only [splitLoop, hsearch, if_neg hzero, hchunks]; rfl, ?_⟩
          have hmatch : ((c :: text).drop place).take length ++ (c :: text).drop (place + length) =
              (c :: text).drop place := by
            rw [← drop_drop]
            exact take_append_drop _ _
          have hgap : (if 0 < place then [(c :: text).take place] else []).flatten =
              (c :: text).take place := by
            split
            · exact flatten_singleton
            · obtain rfl : place = 0 := by omega
              rfl
          rw [flatten_append, flatten_cons, hflat, hmatch, hgap]
          exact take_append_drop _ _

theorem split_flatten (regex : Regex) (splitter : RegexSplitter) (text : Text) :
    ∃ chunks, split regex splitter text = some chunks ∧ chunks.flatten = text := by
  unfold split
  split
  · rename_i hempty
    exact ⟨[], rfl, (isEmpty_iff.mp hempty).symm⟩
  · split
    · exact ⟨[text], rfl, flatten_singleton⟩
    · exact splitLoop_flatten regex _ _ text (Nat.le_refl _)

end RegexSplitter

inductive TokenType where
  | Unknown | BPE | WordPiece | Unigram | WordLevel
deriving DecidableEq

inductive ByteEncoding where
  | Raw | Gpt2
deriving DecidableEq

/-- What every provider describes, read through the base class. -/
structure IToken where
  tokenType : TokenType := .Unknown
  vocab : Vocab := {}
  special : SpecialTokens := {}
  splitPattern : SplitPattern := .None
  customSplitPattern : Text := []
  addPrefixSpace : Bool := false
  byteEncoding : ByteEncoding := .Raw
  merges : List (Text × Text) := []
  byteFallback : Bool := false
  addBosToken : Bool := false
  addEosToken : Bool := false
  chatTemplate : Text := []

/-- The rule of one merge; a merge with an unknown text has none. -/
def resolveMerge (vocab : Vocab) (texts : Text × Text) : Option MergeRule :=
  let left := vocab.findId texts.1
  let right := vocab.findId texts.2
  if left = kInvalidToken ∨ right = kInvalidToken then none
  else
    let merged := vocab.findId (texts.1 ++ texts.2)
    if merged = kInvalidToken then none else some ⟨left, right, merged⟩

def resolveMerges (vocab : Vocab) (merges : List (Text × Text)) : List MergeRule :=
  merges.filterMap (resolveMerge vocab)

/-- The algorithms other than byte-pair encoding, as functions of vocabulary and symbols. -/
abbrev Algorithms : Type := TokenType → Vocab → List Text → List TokenId

inductive Algorithm where
  | bpe (bpe : Bpe)
  | other (type : TokenType)

structure JobToken where
  token : IToken
  splitter : RegexSplitter
  algorithm : Algorithm

namespace JobToken

/-- `TokenAlgoFactory::create`, with the merge rules set for byte-pair encoding. -/
def makeAlgorithm (token : IToken) : Option Algorithm :=
  match token.tokenType with
  | .BPE => some (.bpe (({} : Bpe).setMergeRules (resolveMerges token.vocab token.merges)))
  | .Unigram => some (.other .Unigram)
  | .WordPiece => some (.other .WordPiece)
  | _ => none

/-- `none` when the runtime cannot be configured. -/
def configure (regex : Regex) (token : IToken) : Option JobToken :=
  if token.splitPattern = .Custom ∧ token.customSplitPattern.isEmpty then none
  else do
    let splitter := if token.splitPattern = .Custom then
        RegexSplitter.setCustomPattern regex token.customSplitPattern
      else RegexSplitter.setPattern regex token.splitPattern
    let algorithm ← makeAlgorithm token
    some ⟨token, splitter, algorithm⟩

def encodeBytes (job : JobToken) (text : Text) : List Text :=
  match job.token.byteEncoding with
  | .Raw => RawByteEncoder.encode text
  | .Gpt2 => Gpt2ByteEncoder.encode text

/-- `ITokenAlgo::encode` of the symbols of a chunk. -/
def encodeSymbols (algorithms : Algorithms) (job : JobToken) (symbols : List Text) :
    Option (List TokenId) :=
  match job.algorithm with
  | .other type => some (algorithms type job.token.vocab symbols)
  | .bpe bpe =>
    let initialIds := symbols.map job.token.vocab.findId
    bpe.applyMerges (Bpe.turnsFor initialIds) initialIds

def encodeChunks (algorithms : Algorithms) (job : JobToken) (chunks : List Text) :
    Option (List TokenId) :=
  (chunks.mapM fun chunk => encodeSymbols algorithms job (job.encodeBytes chunk)).map List.flatten

def encodeNormalText (regex : Regex) (algorithms : Algorithms) (job : JobToken) (text : Text) :
    Option (List TokenId) :=
  if text.isEmpty then some []
  else do
    let normalized := UnicodeNormalizer.normalize text { addDummyPrefixSpace := job.token.addPrefixSpace }
    let chunks ← job.splitter.split regex normalized
    if chunks.isEmpty then encodeSymbols algorithms job (job.encodeBytes normalized)
    else encodeChunks algorithms job chunks

/-- The loop of `encode` from a position on, for at most `turns` turns. -/
def encodeLoop (regex : Regex) (algorithms : Algorithms) (job : JobToken) (text : Text) :
    Nat → Nat → Option (List TokenId)
  | 0, _ => none
  | turns + 1, position =>
    if text.length ≤ position then some []
    else
      match job.token.special.findNext text position with
      | none => encodeNormalText regex algorithms job (text.drop position)
      | some found => do
        let before ← if position < found.position then
            encodeNormalText regex algorithms job ((text.drop position).take (found.position - position))
          else some []
        let rest ← encodeLoop regex algorithms job text turns (found.position + found.length)
        some (before ++ found.id :: rest)

/-- `none` when one of the loops has not ended within its turns. -/
def encode (regex : Regex) (algorithms : Algorithms) (job : JobToken) (text : Text) :
    Option (List TokenId) := do
  let output ← encodeLoop regex algorithms job text (text.length + 1) 0
  let bosId := job.token.special.canonical .bos
  let eosId := job.token.special.canonical .eos
  let output := if job.token.addBosToken && bosId != kInvalidToken then bosId :: output else output
  some (if job.token.addEosToken && eosId != kInvalidToken then output ++ [eosId] else output)

/-- `ITokenAlgo::decodeSymbols`, which no algorithm overrides. -/
def decodeSymbols (job : JobToken) (tokens : List TokenId) : List Text :=
  (tokens.map job.token.vocab.tokenText).filter fun text => !text.isEmpty

def decode (job : JobToken) (tokens : List TokenId) : Text :=
  if tokens.isEmpty then []
  else
    let symbols := job.decodeSymbols tokens
    if symbols.isEmpty then []
    else
      match job.token.byteEncoding with
      | .Raw => RawByteEncoder.decode symbols
      | .Gpt2 => Gpt2ByteEncoder.decode symbols

variable {regex : Regex} {algorithms : Algorithms} {job : JobToken}

theorem configure_eq {token : IToken} (h : configure regex token = some job) :
    job.token = token ∧ makeAlgorithm token = some job.algorithm := by
  unfold configure at h
  split at h
  · cases h
  · obtain ⟨algorithm, halgorithm, h⟩ := Option.bind_eq_some_iff.mp h
    obtain rfl := Option.some.inj h
    exact ⟨rfl, halgorithm⟩

/-- Only byte-pair encoding makes a part of its own. -/
theorem makeAlgorithm_other {token : IToken} {algorithm : Algorithm} (hbpe : token.tokenType ≠ .BPE)
    (h : makeAlgorithm token = some algorithm) : ∃ type, algorithm = .other type := by
  unfold makeAlgorithm at h
  split at h
  · rename_i hsame
    exact absurd hsame hbpe
  · exact ⟨_, (Option.some.inj h).symm⟩
  · exact ⟨_, (Option.some.inj h).symm⟩
  · cases h

theorem makeAlgorithm_congr {token token' : IToken} (hbpe : token.tokenType ≠ .BPE)
    (h : token.tokenType = token'.tokenType) : makeAlgorithm token = makeAlgorithm token' := by
  unfold makeAlgorithm
  rw [← h]
  cases htype : token.tokenType <;> first | rfl | exact absurd htype hbpe

theorem configure_splitter {token : IToken} (h : configure regex token = some job) :
    job.splitter = if token.splitPattern = .Custom then
        RegexSplitter.setCustomPattern regex token.customSplitPattern
      else RegexSplitter.setPattern regex token.splitPattern := by
  unfold configure at h
  split at h
  · cases h
  · obtain ⟨algorithm, -, h⟩ := Option.bind_eq_some_iff.mp h
    obtain rfl := Option.some.inj h
    rfl

theorem findBest_nameless {special : SpecialTokens} (h : special.idToName = ∅) (text : Text)
    (offset : Nat) (ids : List TokenId) : special.findBest text offset none ids = none := by
  have hname : ∀ id, special.nameById id = [] := by
    intro id
    rw [SpecialTokens.nameById, h]
    rfl
  induction ids with
  | nil => rfl
  | cons id ids ih =>
    simp only [SpecialTokens.findBest, hname]
    exact ih

/-- Without names the text is encoded in one piece. -/
theorem encodeLoop_nameless (h : job.token.special.idToName = ∅) (text : Text) :
    encodeLoop regex algorithms job text (text.length + 1) 0 =
      encodeNormalText regex algorithms job text := by
  unfold encodeLoop
  split
  · rename_i hempty
    obtain rfl : text = [] := length_eq_zero_iff.mp (Nat.le_zero.mp hempty)
    rfl
  · rw [SpecialTokens.findNext, findBest_nameless h, drop_zero]

/-- The chunks in which a text is encoded. -/
def chunks (regex : Regex) (job : JobToken) (text : Text) : List Text :=
  if text.isEmpty then []
  else
    let normalized := UnicodeNormalizer.normalize text { addDummyPrefixSpace := job.token.addPrefixSpace }
    (job.splitter.split regex normalized).getD []

theorem normalize_ne_nil {text : Text} (h : text ≠ []) (addPrefix : Bool) :
    UnicodeNormalizer.normalize text { addDummyPrefixSpace := addPrefix } ≠ [] := by
  unfold UnicodeNormalizer.normalize
  rw [if_neg (by simpa using h)]
  simp only [Bool.false_eq_true, if_false]
  split
  · exact cons_ne_nil _ _
  · exact h

/-- Encoding a piece of normal text is encoding its chunks. -/
theorem encodeNormalText_eq (text : Text) :
    encodeNormalText regex algorithms job text =
      encodeChunks algorithms job (chunks regex job text) := by
  unfold encodeNormalText chunks
  split
  · rfl
  · rename_i hne
    have htext : text ≠ [] := by simpa using hne
    obtain ⟨pieces, hpieces, hflat⟩ := RegexSplitter.split_flatten regex job.splitter
      (UnicodeNormalizer.normalize text { addDummyPrefixSpace := job.token.addPrefixSpace })
    have hsome : pieces ≠ [] := by
      rintro rfl
      exact normalize_ne_nil htext _ hflat.symm
    simp only [hpieces, Option.bind_eq_bind, Option.bind_some, Option.getD_some]
    rw [if_neg (by simpa using hsome)]

end JobToken

end JobTokenizer
