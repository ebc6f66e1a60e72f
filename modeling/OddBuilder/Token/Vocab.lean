import Mathlib.Algebra.Group.Nat.Defs
import Mathlib.Data.List.AList
import Mathlib.Data.List.Induction

/-!
# Vocabulary

Token records by id, and the table from texts to ids. A token id is a 32-bit
signed integer; the vocabulary is consistent as long as every record has an index
that is one.
-/

namespace JobTokenizer

open List

abbrev TokenId : Type := Int32

abbrev Text : Type := List UInt8

def kInvalidToken : TokenId := -1

inductive StructuralType where
  | Normal | Unknown | Control | UserDefined | Unused | Byte
deriving DecidableEq

/-- A score is only stored and copied, so it is the bits of the float. -/
structure TokenRecord where
  text : Text := []
  id : TokenId := kInvalidToken
  score : UInt32 := 0
  type : StructuralType := .Normal
deriving DecidableEq

def TokenRecord.isValid (record : TokenRecord) : Bool := record.id != kInvalidToken

structure Vocab where
  records : List TokenRecord := []
  textToId : AList (fun _ : Text => TokenId) := ∅

namespace Vocab

variable {vocab : Vocab} {text : Text} {id : TokenId}

/-- `static_cast<size_t>` of an id that is not negative. -/
def index (id : TokenId) : Nat := id.toInt.toNat

/-- The id of the new record is the number of records, narrowed to 32 bits. -/
def addToken (vocab : Vocab) (text : Text) (score : UInt32) (type : StructuralType) : Vocab × TokenId :=
  if text.isEmpty then (vocab, kInvalidToken)
  else
    let id : TokenId := Int32.ofNat vocab.records.length
    ({ records := vocab.records ++ [⟨text, id, score, type⟩]
       textToId := vocab.textToId.insert text id }, id)

/-- `resize` to more records, each invalid. -/
def resize (records : List TokenRecord) (count : Nat) : List TokenRecord :=
  records ++ List.replicate (count - records.length) ({} : TokenRecord)

/-- The text that stood at an id is forgotten if the table still leads to that id. -/
def forget (vocab : Vocab) (id : TokenId) (text : Text) : AList (fun _ : Text => TokenId) :=
  match vocab.records[index id]? with
  | some record =>
    if record.isValid && record.text != text && vocab.textToId.lookup record.text == some id then
      vocab.textToId.erase record.text
    else vocab.textToId
  | none => vocab.textToId

def setToken (vocab : Vocab) (id : TokenId) (text : Text) (score : UInt32) (type : StructuralType) :
    Vocab :=
  if id < 0 || text.isEmpty then vocab
  else
    { records := (resize vocab.records (index id + 1)).set (index id) ⟨text, id, score, type⟩
      textToId := (forget vocab id text).insert text id }

def findId (vocab : Vocab) (text : Text) : TokenId :=
  (vocab.textToId.lookup text).getD kInvalidToken

def record (vocab : Vocab) (id : TokenId) : Option TokenRecord :=
  if id < 0 then none else (vocab.records[index id]?).filter TokenRecord.isValid

def tokenText (vocab : Vocab) (id : TokenId) : Text :=
  match vocab.record id with
  | none => []
  | some record => record.text

/-- `records()[i].setType`. -/
def setRecordType (vocab : Vocab) (i : Nat) (type : StructuralType) : Vocab :=
  { vocab with records := vocab.records.modify i fun record => { record with type := type } }

/-- The vocabularies that the calls which change one make. -/
inductive Built : Vocab → Prop
  | empty : Built {}
  | addToken {vocab : Vocab} (text : Text) (score : UInt32) (type : StructuralType) :
    Built vocab → Built (vocab.addToken text score type).1
  | setToken {vocab : Vocab} (id : TokenId) (text : Text) (score : UInt32) (type : StructuralType) :
    Built vocab → Built (vocab.setToken id text score type)
  | setRecordType {vocab : Vocab} (i : Nat) (type : StructuralType) :
    Built vocab → Built (vocab.setRecordType i type)

/-- Every text in the table leads to the valid record that holds it. -/
def Consistent (vocab : Vocab) : Prop :=
  ∀ text id, vocab.textToId.lookup text = some id →
    0 ≤ id ∧ text ≠ [] ∧ ∃ record, vocab.records[index id]? = some record ∧
      record.text = text ∧ record.id = id

/-- The number of records that ids of 32 bits can tell apart. -/
def kMaxRecords : Nat := 2 ^ 31

theorem index_ofNat {n : Nat} (h : n < kMaxRecords) : index (Int32.ofNat n) = n := by
  rw [index, Int32.toInt_ofNat_of_lt h, Int.toNat_natCast]

theorem ofNat_nonneg {n : Nat} (h : n < kMaxRecords) : 0 ≤ Int32.ofNat n := by
  rw [Int32.le_iff_toInt_le, Int32.toInt_ofNat_of_lt h]
  exact Int.natCast_nonneg n

theorem index_inj {a b : TokenId} (ha : 0 ≤ a) (hb : 0 ≤ b) (h : index a = index b) : a = b := by
  rw [Int32.le_iff_toInt_le] at ha hb
  apply Int32.toInt_inj.mp
  simp only [index] at h
  have hzero : (0 : Int32).toInt = 0 := rfl
  omega

theorem addToken_length_le (vocab : Vocab) (text : Text) (score : UInt32) (type : StructuralType) :
    vocab.records.length ≤ (vocab.addToken text score type).1.records.length := by
  simp only [addToken]
  split
  · exact Nat.le_refl _
  · simp only [length_append]
    omega

theorem setToken_length_le (vocab : Vocab) (id : TokenId) (text : Text) (score : UInt32)
    (type : StructuralType) :
    vocab.records.length ≤ (vocab.setToken id text score type).records.length := by
  simp only [setToken]
  split
  · exact Nat.le_refl _
  · simp only [resize, length_set, length_append]
    omega

/-- The first token of a vocabulary makes room for all ids below its own. -/
theorem setToken_empty_length (hid : 0 ≤ id) (htext : text ≠ []) (score : UInt32)
    (type : StructuralType) :
    (({} : Vocab).setToken id text score type).records.length = index id + 1 := by
  have hnot : ¬ ((id < 0 || text.isEmpty) = true) := by
    simp only [Bool.or_eq_true, decide_eq_true_eq, List.isEmpty_iff, not_or]
    exact ⟨Int32.not_lt.mpr hid, htext⟩
  rw [setToken, if_neg hnot]
  simp only [resize, length_set, length_append, length_nil, length_replicate]
  omega

theorem addToken_consistent (h : vocab.Consistent) (text : Text) (score : UInt32)
    (type : StructuralType)
    (small : (vocab.addToken text score type).1.records.length ≤ kMaxRecords) :
    (vocab.addToken text score type).1.Consistent := by
  unfold addToken at small ⊢
  split
  · exact h
  · rename_i hne
    rw [if_neg hne] at small
    simp only [length_append] at small
    intro text' id' hlookup
    by_cases hsame : text' = text
    · subst hsame
      rw [AList.lookup_insert] at hlookup
      obtain rfl := Option.some.inj hlookup
      refine ⟨ofNat_nonneg small, by simpa using hne,
        ⟨text', Int32.ofNat vocab.records.length, score, type⟩, ?_, rfl, rfl⟩
      rw [index_ofNat small, List.getElem?_append_right (Nat.le_refl _), Nat.sub_self]
      rfl
    · rw [AList.lookup_insert_ne hsame] at hlookup
      obtain ⟨hid, htext, record, hrecord, hfields⟩ := h _ _ hlookup
      refine ⟨hid, htext, record, ?_, hfields⟩
      rw [List.getElem?_append_left (List.getElem?_eq_some_iff.mp hrecord).1]
      exact hrecord

/-- What the table still holds after `forget` does not lead to the id. -/
theorem forget_lookup (h : vocab.Consistent) {id' : TokenId} {text' : Text} (hne : text' ≠ text)
    (hlookup : (forget vocab id text).lookup text' = some id') :
    vocab.textToId.lookup text' = some id' ∧ id' ≠ id := by
  have hkeep : vocab.textToId.lookup text' = some id' := by
    unfold forget at hlookup
    split at hlookup
    · split at hlookup
      · rename_i record _ _
        by_cases heq : text' = record.text
        · rw [heq, AList.lookup_erase] at hlookup
          cases hlookup
        · rwa [AList.lookup_erase_ne heq] at hlookup
      · exact hlookup
    · exact hlookup
  refine ⟨hkeep, ?_⟩
  rintro rfl
  obtain ⟨hid, -, record, hrecord, rfl, hrecordId⟩ := h _ _ hkeep
  have hvalid : record.id ≠ kInvalidToken := by
    rw [hrecordId]
    rintro rfl
    exact absurd hid (by decide)
  -- the record at the id is the one with this text, so its text has been erased
  have hforget : forget vocab id' text = vocab.textToId.erase record.text := by
    unfold forget
    rw [hrecord]
    dsimp only
    rw [if_pos]
    simp only [TokenRecord.isValid, bne_iff_ne, Bool.and_eq_true, beq_iff_eq]
    exact ⟨⟨hvalid, hne⟩, hkeep⟩
  rw [hforget, AList.lookup_erase] at hlookup
  cases hlookup

theorem setToken_consistent (h : vocab.Consistent) (id : TokenId) (text : Text) (score : UInt32)
    (type : StructuralType) : (vocab.setToken id text score type).Consistent := by
  unfold setToken
  split
  · exact h
  · rename_i hne
    simp only [Bool.or_eq_true, decide_eq_true_eq, List.isEmpty_iff, not_or] at hne
    obtain ⟨hid, htext⟩ := hne
    have hnonneg : 0 ≤ id := Int32.not_lt.mp hid
    have hlong : index id < (resize vocab.records (index id + 1)).length := by
      simp only [resize, length_append, length_replicate]
      omega
    intro text' id' hlookup
    by_cases hsame : text' = text
    · subst hsame
      rw [AList.lookup_insert] at hlookup
      obtain rfl := Option.some.inj hlookup
      exact ⟨hnonneg, htext, _, List.getElem?_set_self hlong, rfl, rfl⟩
    · rw [AList.lookup_insert_ne hsame] at hlookup
      obtain ⟨hold, hother⟩ := forget_lookup h hsame hlookup
      obtain ⟨hid', htext', record, hrecord, hfields⟩ := h _ _ hold
      have hplace : index id ≠ index id' := fun heq => hother (index_inj hnonneg hid' heq).symm
      refine ⟨hid', htext', record, ?_, hfields⟩
      rw [List.getElem?_set_ne hplace, resize,
        List.getElem?_append_left (List.getElem?_eq_some_iff.mp hrecord).1]
      exact hrecord

theorem setRecordType_consistent (h : vocab.Consistent) (i : Nat) (type : StructuralType) :
    (vocab.setRecordType i type).Consistent := by
  intro text id hlookup
  obtain ⟨hid, htext, record, hrecord, hrecordText, hrecordId⟩ := h text id hlookup
  refine ⟨hid, htext, if i = index id then { record with type := type } else record, ?_, ?_, ?_⟩
  · simp [setRecordType, List.getElem?_modify, hrecord]
  · split <;> exact hrecordText
  · split <;> exact hrecordId

/-- What the three calls keep as long as there is an id for every record, a vocabulary has. -/
theorem Built.rule {P : Vocab → Prop} (hempty : P {})
    (hadd : ∀ {vocab}, P vocab → ∀ text score type,
      (vocab.addToken text score type).1.records.length ≤ kMaxRecords →
        P (vocab.addToken text score type).1)
    (hset : ∀ {vocab}, P vocab → ∀ id text score type, P (vocab.setToken id text score type))
    (htype : ∀ {vocab}, P vocab → ∀ i type, P (vocab.setRecordType i type))
    (built : vocab.Built) (small : vocab.records.length ≤ kMaxRecords) : P vocab := by
  induction built with
  | empty => exact hempty
  | @addToken vocab text score type _ ih =>
    have hbefore := addToken_length_le vocab text score type
    exact hadd (ih (by omega)) text score type small
  | @setToken vocab id text score type _ ih =>
    have hbefore := setToken_length_le vocab id text score type
    exact hset (ih (by omega)) id text score type
  | @setRecordType vocab i type _ ih =>
    simp only [Vocab.setRecordType, length_modify] at small
    exact htype (ih small) i type

/-- A vocabulary with no more records than ids is consistent, however it was built. -/
theorem Built.consistent (built : vocab.Built) (small : vocab.records.length ≤ kMaxRecords) :
    vocab.Consistent :=
  built.rule nofun addToken_consistent setToken_consistent setRecordType_consistent small

theorem lookup_of_findId (h : vocab.findId text ≠ kInvalidToken) :
    vocab.textToId.lookup text = some (vocab.findId text) := by
  unfold findId at h ⊢
  cases hlookup : vocab.textToId.lookup text with
  | none =>
    rw [hlookup] at h
    exact absurd rfl h
  | some id => rfl

/-- A text that is found is the text of the token that is found for it. -/
theorem Consistent.tokenText_findId (h : vocab.Consistent)
    (hfound : vocab.findId text ≠ kInvalidToken) : vocab.tokenText (vocab.findId text) = text := by
  obtain ⟨hid, -, found, hrecord, htext, hrecordId⟩ := h _ _ (lookup_of_findId hfound)
  have hvalid : found.isValid = true := by simpa [TokenRecord.isValid, hrecordId] using hfound
  simp [tokenText, record, if_neg (Int32.not_lt.mpr hid), hrecord, Option.filter_some, hvalid,
    htext]

theorem Consistent.exists_record (h : vocab.Consistent)
    (hfound : vocab.findId text ≠ kInvalidToken) :
    ∃ record ∈ vocab.records, record.isValid = true ∧ record.text = text := by
  obtain ⟨-, -, record, hrecord, htext, hid⟩ := h _ _ (lookup_of_findId hfound)
  exact ⟨record, mem_of_getElem? hrecord, by simpa [TokenRecord.isValid, hid] using hfound, htext⟩

/-- Every valid record stands at its own id. -/
def Placed (vocab : Vocab) : Prop :=
  ∀ i record, vocab.records[i]? = some record → record.isValid = true →
    0 ≤ record.id ∧ index record.id = i

theorem addToken_placed (h : vocab.Placed) (text : Text) (score : UInt32) (type : StructuralType)
    (small : (vocab.addToken text score type).1.records.length ≤ kMaxRecords) :
    (vocab.addToken text score type).1.Placed := by
  unfold addToken at small ⊢
  split
  · exact h
  · rename_i hne
    rw [if_neg hne] at small
    simp only [length_append] at small
    intro i record hrecord hvalid
    rw [List.getElem?_append] at hrecord
    split at hrecord
    · exact h i record hrecord hvalid
    · have hi := (List.getElem?_eq_some_iff.mp hrecord).1
      rw [length_singleton] at hi
      have hplace : i = vocab.records.length := by omega
      rw [hplace, Nat.sub_self] at hrecord
      obtain rfl := Option.some.inj hrecord
      exact ⟨ofNat_nonneg small, (index_ofNat small).trans hplace.symm⟩

theorem setToken_placed (h : vocab.Placed) (id : TokenId) (text : Text) (score : UInt32)
    (type : StructuralType) : (vocab.setToken id text score type).Placed := by
  unfold setToken
  split
  · exact h
  · rename_i hne
    simp only [Bool.or_eq_true, decide_eq_true_eq, not_or] at hne
    intro i record hrecord hvalid
    rw [List.getElem?_set] at hrecord
    split at hrecord
    · rename_i hplace
      split at hrecord
      · obtain rfl := Option.some.inj hrecord
        exact ⟨Int32.not_lt.mp hne.1, hplace⟩
      · cases hrecord
    · rw [resize, List.getElem?_append] at hrecord
      split at hrecord
      · exact h i record hrecord hvalid
      · obtain rfl := eq_of_mem_replicate (mem_of_getElem? hrecord)
        cases hvalid

theorem setRecordType_placed (h : vocab.Placed) (i : Nat) (type : StructuralType) :
    (vocab.setRecordType i type).Placed := by
  intro j record hrecord hvalid
  simp only [setRecordType, List.getElem?_modify] at hrecord
  obtain ⟨old, hold, rfl⟩ := Option.map_eq_some_iff.mp hrecord
  have hplaced := h j old hold (by split at hvalid <;> exact hvalid)
  split <;> exact hplaced

theorem Built.placed (built : vocab.Built) (small : vocab.records.length ≤ kMaxRecords) :
    vocab.Placed :=
  built.rule nofun addToken_placed setToken_placed setRecordType_placed small

theorem Placed.tokenText_id (h : vocab.Placed) {found : TokenRecord} (hmem : found ∈ vocab.records)
    (hvalid : found.isValid = true) : vocab.tokenText found.id = found.text := by
  obtain ⟨i, hi⟩ := List.getElem?_of_mem hmem
  obtain ⟨hid, hplace⟩ := h i found hi hvalid
  simp [tokenText, record, if_neg (Int32.not_lt.mpr hid), hplace, hi, Option.filter_some, hvalid]

/-- One token for each text, all with the default score and type. -/
def addTokens (vocab : Vocab) (texts : List Text) : Vocab :=
  texts.foldl (fun vocab text => (vocab.addToken text 0 .Normal).1) vocab

theorem addTokens_append (vocab : Vocab) (texts : List Text) (text : Text) :
    vocab.addTokens (texts ++ [text]) = ((vocab.addTokens texts).addToken text 0 .Normal).1 := by
  simp [addTokens]

theorem Built.addTokens (built : vocab.Built) (texts : List Text) :
    (vocab.addTokens texts).Built := by
  induction texts using List.reverseRecOn with
  | nil => exact built
  | append_singleton texts text ih =>
    rw [addTokens_append]
    exact .addToken text 0 .Normal ih

theorem addTokens_length (vocab : Vocab) (texts : List Text) :
    vocab.records.length ≤ (vocab.addTokens texts).records.length ∧
      (vocab.addTokens texts).records.length ≤ vocab.records.length + texts.length := by
  induction texts using List.reverseRecOn with
  | nil => exact ⟨Nat.le_refl _, Nat.le_refl _⟩
  | append_singleton texts text ih =>
    rw [addTokens_append, addToken]
    split
    · simp only [length_append]
      omega
    · simp only [length_append, length_singleton]
      omega

theorem addTokens_texts (vocab : Vocab) {texts : List Text} (hne : ∀ text ∈ texts, text ≠ []) :
    (vocab.addTokens texts).records.map TokenRecord.text = vocab.records.map TokenRecord.text ++ texts := by
  induction texts using List.reverseRecOn with
  | nil => exact (append_nil _).symm
  | append_singleton texts text ih =>
    have hlast : text ≠ [] := hne text (mem_append_right _ (mem_singleton.mpr rfl))
    rw [addTokens_append, addToken, if_neg (by simpa using hlast)]
    rw [map_append, ih fun other hother => hne other (mem_append_left _ hother), append_assoc]
    rfl

/-- An added text has the narrowed index of a record that was added. -/
theorem addTokens_findId (vocab : Vocab) {texts : List Text} (hmem : text ∈ texts)
    (hne : text ≠ []) :
    ∃ i, vocab.records.length ≤ i ∧ i < vocab.records.length + texts.length ∧
      (vocab.addTokens texts).findId text = Int32.ofNat i := by
  suffices hlookup : ∃ i, vocab.records.length ≤ i ∧ i < vocab.records.length + texts.length ∧
      (vocab.addTokens texts).textToId.lookup text = some (Int32.ofNat i) by
    obtain ⟨i, hle, hlt, hlookup⟩ := hlookup
    exact ⟨i, hle, hlt, by rw [findId, hlookup]; rfl⟩
  induction texts using List.reverseRecOn with
  | nil => cases hmem
  | append_singleton texts last ih =>
    have hlength := addTokens_length vocab texts
    rw [addTokens_append, addToken, length_append, length_singleton]
    by_cases hsame : text = last
    · subst hsame
      rw [if_neg (by simpa using hne)]
      exact ⟨_, hlength.1, by omega, AList.lookup_insert _⟩
    · have hrest : text ∈ texts := by simpa [hsame] using hmem
      obtain ⟨i, hle, hlt, hlookup⟩ := ih hrest
      refine ⟨i, hle, by omega, ?_⟩
      split
      · exact hlookup
      · exact (AList.lookup_insert_ne hsame).trans hlookup

/-- Narrowed indexes from `2 ^ 31` on are negative, but not yet the invalid id. -/
theorem ofNat_negative {i : Nat} (hlow : kMaxRecords ≤ i) (hhigh : i < 2 ^ 32 - 1) :
    Int32.ofNat i < 0 ∧ Int32.ofNat i ≠ kInvalidToken := by
  simp only [kMaxRecords] at hlow
  have hint : (Int32.ofNat i).toInt = (i : Int) - 2 ^ 32 := by
    rw [Int32.toInt_ofNat', Int.bmod_def]
    simp only [Int32.size]
    omega
  constructor
  · rw [Int32.lt_iff_toInt_lt]
    have hzero : (0 : Int32).toInt = 0 := rfl
    omega
  · intro heq
    rw [heq] at hint
    have hminus : kInvalidToken.toInt = -1 := rfl
    omega

theorem ofNat_valid {i : Nat} (h : i < kMaxRecords) : Int32.ofNat i ≠ kInvalidToken := by
  intro heq
  have hnonneg := ofNat_nonneg h
  rw [heq] at hnonneg
  exact absurd hnonneg (by decide)

theorem tokenText_negative (vocab : Vocab) (h : id < 0) : vocab.tokenText id = [] := by
  simp [tokenText, record, if_pos h]

end Vocab

end JobTokenizer
