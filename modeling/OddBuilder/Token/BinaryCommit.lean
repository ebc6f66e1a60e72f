import OddBuilder.Token.BinaryAccess

/-!
# What a load leaves behind

The loader as it changes a provider: it clears it, reads the whole file into
temporaries and then commits them in many steps. Whether it has succeeded is decided
after the last of them.
-/

namespace JobTokenizer

open List Option Vocab

namespace BinaryToken

variable {rest buffer : Buffer} {i : Nat}

/-- `clear` of the base class and, by `extraClear`, of the members beside it. -/
def clear (token : BinaryToken) : BinaryToken :=
  { token with
    base := { token.base with
      tokenType := .Unknown
      splitPattern := .None
      customSplitPattern := []
      byteEncoding := .Raw
      merges := []
      addPrefixSpace := false
      byteFallback := false
      addBosToken := false
      addEosToken := false
      chatTemplate := []
      vocab := {}
      special := {} }
    version := 0
    merges := [] }

/-- The second half of `load`, which commits what has been read. -/
def commitTo (token : BinaryToken) (file : ParsedFile) : BinaryToken :=
  let vocab := commitTokens token.base.vocab 0 file.tokens
  { token with
    version := file.header.version
    merges := file.merges
    base := { token.base with
      tokenType := tokenTypeOf file.header.modelType
      splitPattern := splitPatternOf file.header.splitPattern
      byteFallback := file.header.flags.testBit 0
      addPrefixSpace := file.header.flags.testBit 1
      addBosToken := file.header.flags.testBit 2
      addEosToken := file.header.flags.testBit 3
      chatTemplate := file.chatTemplate
      vocab := vocab
      special := commitIds vocab token.base.special (headerOrder.zip file.header.ids) } }

/-- `load` as it changes the provider. -/
def loadInto (token : BinaryToken) (buffer : Buffer) : Bool × BinaryToken :=
  let token := token.clear
  match parse buffer with
  | none => (false, token)
  | some (file, _) =>
    let token := token.commitTo file
    (decide (0 < token.base.vocab.records.length), token)

/-- A provider without anything. -/
def cleared : BinaryToken where
  base := {}
  version := 0
  merges := []

theorem clear_eq (token : BinaryToken) : token.clear = cleared := rfl

theorem loadInto_none (h : parse buffer = none) (token : BinaryToken) :
    token.loadInto buffer = (false, cleared) := by
  simp [loadInto, h, clear_eq]

theorem loadInto_some {file : ParsedFile} (h : parse buffer = some (file, rest))
    (token : BinaryToken) :
    token.loadInto buffer =
      (decide (0 < (cleared.commitTo file).base.vocab.records.length), cleared.commitTo file) := by
  simp only [loadInto, h]
  rfl

theorem ofNat_declined (hlow : kMaxRecords ≤ i) (hhigh : i < 4294967296) :
    Int32.ofNat i < 0 := by
  rcases Nat.lt_or_eq_of_le (Nat.le_of_lt_succ hhigh) with hlt | rfl
  · exact (ofNat_negative hlow hlt).1
  · decide

theorem setToken_isEmpty (vocab : Vocab) (hi : i < 4294967296) (text : Text) (score : UInt32)
    (type : StructuralType) :
    (vocab.setToken (Int32.ofNat i) text score type).records = [] ↔
      vocab.records = [] ∧ (i < kMaxRecords → text = []) := by
  by_cases hdecline : Int32.ofNat i < 0 ∨ text = []
  · have hsame : vocab.setToken (Int32.ofNat i) text score type = vocab := by
      refine if_pos ?_
      simpa using hdecline
    rw [hsame]
    refine ⟨fun h => ⟨h, fun hlt => ?_⟩, fun h => h.1⟩
    rcases hdecline with hnegative | hempty
    · exact absurd hnegative (Int32.not_lt.mpr (ofNat_nonneg hlt))
    · exact hempty
  · obtain ⟨hnonneg, htext⟩ := not_or.mp hdecline
    have hlt : i < kMaxRecords := by
      by_contra hge
      exact hnonneg (ofNat_declined (Nat.not_lt.mp hge) hi)
    refine iff_of_false (fun h => ?_) fun h => htext (h.2 hlt)
    have hlength := congrArg List.length h
    rw [setToken, if_neg (by simpa using ⟨Int32.not_lt.mp hnonneg, htext⟩)] at hlength
    simp only [length_set, resize, length_append, length_replicate, length_nil] at hlength
    omega

/-- The loop makes a record exactly if one of the tokens whose index is an id has a text. -/
theorem commitTokens_isEmpty (vocab : Vocab) (tokens : List ParsedToken)
    (hi : i + tokens.length ≤ 4294967296) :
    (commitTokens vocab i tokens).records = [] ↔
      vocab.records = [] ∧ ∀ token ∈ tokens.take (kMaxRecords - i), token.text = [] := by
  induction tokens generalizing vocab i with
  | nil => simp [commitTokens]
  | cons token tokens ih =>
    rw [length_cons] at hi
    have hrecords : ∀ (v : Vocab) (j : Nat) (type : StructuralType),
        (v.setRecordType j type).records = [] ↔ v.records = [] := by
      intro v j type
      rw [← length_eq_zero_iff, ← length_eq_zero_iff, setRecordType, length_modify]
    rw [commitTokens, ih _ (by omega), hrecords, setToken_isEmpty vocab (by omega), and_assoc]
    refine and_congr_right fun _ => ?_
    by_cases hlt : i < kMaxRecords
    · have hone : kMaxRecords - i = (kMaxRecords - (i + 1)) + 1 := by omega
      rw [hone]
      simp [hlt]
    · have hzero : kMaxRecords - i = 0 := by omega
      have hzero' : kMaxRecords - (i + 1) = 0 := by omega
      simp [hzero, hzero', hlt]

theorem read_lt {input : Buffer} {width value : Nat}
    (h : BufferReader.read width input = some (value, rest)) : value < 256 ^ width := by
  obtain ⟨⟨bytes⟩, hbytes, h⟩ := bind_eq_some_iff.mp h
  obtain ⟨rfl⟩ := Prod.mk.inj (Option.some.inj h)
  unfold BufferReader.readString at hbytes
  split at hbytes
  · cases hbytes
  · obtain ⟨rfl⟩ := Prod.mk.inj (Option.some.inj hbytes)
    have hlength : (input.take width).length = width := by
      rw [length_take]
      omega
    have hlt := LittleEndian.decode_lt (input.take width)
    rwa [hlength] at hlt

theorem readTokens_length {count : Nat} {input : Buffer} {tokens : List ParsedToken}
    (h : readTokens count input = some (tokens, rest)) : tokens.length = count := by
  induction count generalizing input tokens rest with
  | zero =>
    obtain ⟨rfl⟩ := Prod.mk.inj (Option.some.inj h)
    rfl
  | succ count ih =>
    obtain ⟨⟨tokenLength⟩, -, h⟩ := bind_eq_some_iff.mp h
    obtain ⟨⟨text⟩, -, h⟩ := bind_eq_some_iff.mp h
    obtain ⟨⟨score⟩, -, h⟩ := bind_eq_some_iff.mp h
    obtain ⟨⟨rawType⟩, -, h⟩ := bind_eq_some_iff.mp h
    obtain ⟨⟨later⟩, hlater, h⟩ := bind_eq_some_iff.mp h
    obtain ⟨rfl⟩ := Prod.mk.inj (Option.some.inj h)
    rw [length_cons, ih hlater]

/-- The header of a file has the current version and says how many tokens there are. -/
theorem parse_header {file : ParsedFile} (h : parse buffer = some (file, rest)) :
    file.header.version = CURRENT_VERSION ∧ file.tokens.length < 4294967296 := by
  obtain ⟨⟨header⟩, hheader, h⟩ := bind_eq_some_iff.mp h
  dsimp only at h
  split_ifs at h with hmagic hversion
  obtain ⟨⟨chat⟩, -, h⟩ := bind_eq_some_iff.mp h
  obtain ⟨⟨tokens⟩, htokens, h⟩ := bind_eq_some_iff.mp h
  obtain ⟨⟨merges⟩, -, h⟩ := bind_eq_some_iff.mp h
  obtain ⟨rfl⟩ := Prod.mk.inj (Option.some.inj h)
  refine ⟨not_not.mp hversion, ?_⟩
  rw [readTokens_length htokens]
  obtain ⟨⟨magic⟩, -, hheader⟩ := bind_eq_some_iff.mp hheader
  obtain ⟨⟨vocabSize⟩, hvocabSize, hheader⟩ := bind_eq_some_iff.mp hheader
  obtain ⟨⟨mergesSize⟩, -, hheader⟩ := bind_eq_some_iff.mp hheader
  obtain ⟨⟨chatTemplateLen⟩, -, hheader⟩ := bind_eq_some_iff.mp hheader
  obtain ⟨⟨ids⟩, -, hheader⟩ := bind_eq_some_iff.mp hheader
  obtain ⟨⟨version⟩, -, hheader⟩ := bind_eq_some_iff.mp hheader
  obtain ⟨⟨modelType⟩, -, hheader⟩ := bind_eq_some_iff.mp hheader
  obtain ⟨⟨splitPattern⟩, -, hheader⟩ := bind_eq_some_iff.mp hheader
  obtain ⟨⟨flags⟩, -, hheader⟩ := bind_eq_some_iff.mp hheader
  obtain ⟨rfl⟩ := Prod.mk.inj (Option.some.inj hheader)
  exact read_lt hvocabSize

/-- A load that fails leaves the provider cleared, and one that succeeds leaves what the buffer
says, exactly if the buffer holds no file or one with a token, at an index that is an id, that has
a text. -/
theorem load_all_or_nothing_iff (token : BinaryToken) (buffer : Buffer) :
    (((token.loadInto buffer).1 = false → (token.loadInto buffer).2 = cleared) ∧
      ((token.loadInto buffer).1 = true → ∀ other : BinaryToken,
        other.loadInto buffer = token.loadInto buffer)) ↔
    ∀ file rest, parse buffer = some (file, rest) →
      ∃ t ∈ file.tokens.take kMaxRecords, t.text ≠ [] := by
  cases hfile : parse buffer with
  | none =>
    simp only [loadInto_none hfile, reduceCtorEq, false_implies, implies_true, and_self]
  | some found =>
    obtain ⟨file, rest⟩ := found
    obtain ⟨hversion, hcount⟩ := parse_header hfile
    have hempty := commitTokens_isEmpty {} file.tokens (i := 0) (by omega)
    have hne : cleared.commitTo file ≠ cleared := by
      intro hsame
      have hzero : (cleared.commitTo file).version = 0 := by rw [hsame]; rfl
      rw [show (cleared.commitTo file).version = file.header.version from rfl, hversion] at hzero
      cases hzero
    have hrecords : (cleared.commitTo file).base.vocab.records =
        (commitTokens {} 0 file.tokens).records := rfl
    have hiff : (∃ t ∈ file.tokens.take kMaxRecords, t.text ≠ []) ↔
        0 < (cleared.commitTo file).base.vocab.records.length := by
      rw [length_pos_iff, hrecords, ne_eq, hempty]
      simp only [Nat.sub_zero, true_and, not_forall, exists_prop, ne_eq]
    simp only [loadInto_some hfile, decide_eq_false_iff_not, decide_eq_true_eq, implies_true, and_true]
    constructor
    · rintro h file' rest' hsame
      obtain ⟨rfl, rfl⟩ := Prod.mk.inj (Option.some.inj hsame)
      rw [hiff]
      by_contra hnone
      exact hne (h hnone)
    · exact fun h hnone => absurd (hiff.mp (h file rest rfl)) hnone

/-- A file with a template, a merge and flags, and without tokens. -/
def tokenlessFile : Buffer :=
  (⟨MAGIC, 0, 1, 2, List.replicate 11 kInvalidToken, CURRENT_VERSION, 1, 0, 15⟩ : BinaryHeader).write ++
    ([104, 105] ++ writeMerge ([97], [98]))

/-- Loading it fails, and leaves all of it but a vocabulary behind. -/
theorem tokenlessFile_left :
    (cleared.loadInto tokenlessFile).1 = false ∧
      (cleared.loadInto tokenlessFile).2.base.chatTemplate = [104, 105] ∧
      (cleared.loadInto tokenlessFile).2.merges = [([97], [98])] ∧
      (cleared.loadInto tokenlessFile).2.base.addBosToken = true ∧
      (cleared.loadInto tokenlessFile).2 ≠ cleared := by
  have hmerges : (cleared.loadInto tokenlessFile).2.merges = [([97], [98])] := by decide
  refine ⟨by decide, by decide, hmerges, by decide, fun hsame => ?_⟩
  rw [hsame] at hmerges
  cases hmerges

end BinaryToken

end JobTokenizer
