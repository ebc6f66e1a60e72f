import OddBuilder.Token.Vocab

/-!
# The text index of a vocabulary

Whether every text leads to a record that has it and every record is found by its
text. The index keeps one id for each text, so a text that two records share is
lost for both when the slot that the index leads to is given another text.
-/

namespace JobTokenizer

namespace Vocab

variable {vocab : Vocab} {text : Text} {id : TokenId}

/-- The calls that change records or index. -/
inductive Call where
  | addToken (text : Text) (score : UInt32) (type : StructuralType)
  | setToken (id : TokenId) (text : Text) (score : UInt32) (type : StructuralType)
  | clear

def step (vocab : Vocab) : Call → Vocab
  | .addToken text score type => (vocab.addToken text score type).1
  | .setToken id text score type => vocab.setToken id text score type
  | .clear => {}

def run (vocab : Vocab) (calls : List Call) : Vocab := calls.foldl step vocab

/-- A text that is found is the text of its token, and the text of a valid record is found, as that
record or as another one with the same text. -/
structure Exact (vocab : Vocab) : Prop where
  sound : ∀ text, vocab.findId text ≠ kInvalidToken → vocab.tokenText (vocab.findId text) = text
  complete : ∀ record ∈ vocab.records, record.isValid = true →
    ∃ other ∈ vocab.records, other.isValid = true ∧ other.text = record.text ∧
      vocab.findId record.text = other.id

/-- A new text for the slot that the index leads to, while another record has the old text. -/
def Orphans (vocab : Vocab) (id : TokenId) (text : Text) : Prop :=
  ∃ record, vocab.records[index id]? = some record ∧ record.isValid = true ∧ record.text ≠ text ∧
    vocab.findId record.text = id ∧
    ∃ i other, i ≠ index id ∧ vocab.records[i]? = some other ∧ other.isValid = true ∧
      other.text = record.text

/-- The id of a new token fits, and a slot is not taken from a text that another record has. -/
def Clean (vocab : Vocab) : Call → Prop
  | .addToken text _ _ => text = [] ∨ vocab.records.length < kMaxRecords
  | .setToken id text _ _ => id < 0 ∨ text = [] ∨ ¬ vocab.Orphans id text
  | .clear => True

/-- Every call is clean when its turn comes. -/
def CleanRun (vocab : Vocab) : List Call → Prop
  | [] => True
  | call :: calls => vocab.Clean call ∧ (vocab.step call).CleanRun calls

/-- The text of every valid record is in the table. -/
def Covered (vocab : Vocab) : Prop :=
  ∀ record ∈ vocab.records, record.isValid = true → vocab.textToId.lookup record.text ≠ none

theorem lookup_insert_ne_none {table : AList (fun _ : Text => TokenId)} {other : Text}
    (h : table.lookup other ≠ none) : (table.insert text id).lookup other ≠ none := by
  by_cases hsame : other = text
  · subst hsame
    rw [AList.lookup_insert]
    exact Option.some_ne_none id
  · rwa [AList.lookup_insert_ne hsame]

theorem addToken_covered (h : vocab.Covered) (text : Text) (score : UInt32)
    (type : StructuralType) : (vocab.addToken text score type).1.Covered := by
  unfold addToken
  split
  · exact h
  · intro record hrecord hvalid
    rcases List.mem_append.mp hrecord with hrecord | hrecord
    · exact lookup_insert_ne_none (h record hrecord hvalid)
    · obtain rfl := List.mem_singleton.mp hrecord
      rw [AList.lookup_insert]
      exact Option.some_ne_none _

/-- What `forget` takes out of the table. -/
theorem forget_eq_none {other : Text} (hold : vocab.textToId.lookup other ≠ none)
    (hnew : (forget vocab id text).lookup other = none) :
    ∃ record, vocab.records[index id]? = some record ∧ record.isValid = true ∧ record.text = other ∧
      other ≠ text ∧ vocab.findId other = id := by
  unfold forget at hnew
  split at hnew
  · rename_i record hrecord
    split at hnew
    · rename_i herase
      simp only [Bool.and_eq_true, bne_iff_ne, beq_iff_eq] at herase
      obtain ⟨⟨hvalid, hne⟩, hlead⟩ := herase
      by_cases hsame : other = record.text
      · subst hsame
        refine ⟨record, hrecord, hvalid, rfl, hne, ?_⟩
        rw [findId, hlead]
        rfl
      · rw [AList.lookup_erase_ne hsame] at hnew
        exact absurd hnew hold
    · exact absurd hnew hold
  · exact absurd hnew hold

theorem setToken_covered (h : vocab.Covered) (clean : id < 0 ∨ text = [] ∨ ¬ vocab.Orphans id text)
    (score : UInt32) (type : StructuralType) : (vocab.setToken id text score type).Covered := by
  unfold setToken
  split
  · exact h
  · rename_i hne
    simp only [Bool.or_eq_true, decide_eq_true_eq, List.isEmpty_iff, not_or] at hne
    have hkeeps : ¬ vocab.Orphans id text := (clean.resolve_left hne.1).resolve_left hne.2
    intro record hrecord hvalid
    obtain ⟨i, hi⟩ := List.getElem?_of_mem hrecord
    rw [List.getElem?_set] at hi
    split at hi
    · split at hi
      · obtain rfl := Option.some.inj hi
        rw [AList.lookup_insert]
        exact Option.some_ne_none _
      · cases hi
    · rename_i hplace
      -- a valid record in another slot was there before
      have hbefore : vocab.records[i]? = some record := by
        rw [resize, List.getElem?_append] at hi
        split at hi
        · exact hi
        · obtain rfl := List.eq_of_mem_replicate (List.mem_of_getElem? hi)
          cases hvalid
      have hold := h record (List.mem_of_getElem? hbefore) hvalid
      by_cases hsame : record.text = text
      · rw [hsame, AList.lookup_insert]
        exact Option.some_ne_none _
      · rw [AList.lookup_insert_ne hsame]
        intro hnone
        obtain ⟨lost, hlost, hlostValid, hlostText, hlostNe, hlead⟩ := forget_eq_none hold hnone
        refine hkeeps ⟨lost, hlost, hlostValid, ?_, ?_, i, record, Ne.symm hplace, hbefore, hvalid,
          hlostText.symm⟩
        · rw [hlostText]
          exact hlostNe
        · rw [hlostText]
          exact hlead

theorem exact_of_covered (consistent : vocab.Consistent) (covered : vocab.Covered) :
    vocab.Exact where
  sound text hfound := consistent.tokenText_findId hfound
  complete record hrecord hvalid := by
    obtain ⟨id, hid⟩ := Option.ne_none_iff_exists'.mp (covered record hrecord hvalid)
    obtain ⟨hnonneg, -, other, hother, htext, hotherId⟩ := consistent _ _ hid
    refine ⟨other, List.mem_of_getElem? hother, ?_, htext, ?_⟩
    · rw [TokenRecord.isValid, hotherId, bne_iff_ne]
      rintro rfl
      exact absurd hnonneg (by decide)
    · rw [findId, hid, hotherId]
      rfl

theorem step_keeps (consistent : vocab.Consistent) (covered : vocab.Covered) {call : Call}
    (clean : vocab.Clean call) : (vocab.step call).Consistent ∧ (vocab.step call).Covered := by
  cases call with
  | addToken text score type =>
    refine ⟨?_, addToken_covered covered text score type⟩
    rcases clean with rfl | hroom
    · exact consistent
    · refine addToken_consistent consistent text score type ?_
      simp only [addToken]
      split
      · exact Nat.le_of_lt hroom
      · rw [List.length_append]
        exact hroom
  | setToken id text score type =>
    exact ⟨setToken_consistent consistent id text score type, setToken_covered covered clean score type⟩
  | clear =>
    constructor
    · intro _ _ h
      cases h
    · intro _ h
      cases h

/-- In a run of clean calls the index is exact after every call. -/
theorem run_exact (calls : List Call) (clean : CleanRun {} calls) (n : Nat) :
    (run {} (calls.take n)).Exact := by
  suffices keeps : ∀ vocab : Vocab, vocab.Consistent → vocab.Covered → CleanRun vocab calls →
      (run vocab (calls.take n)).Exact from
    keeps {} (fun _ _ h => nomatch h) (fun _ h => nomatch h) clean
  clear clean
  induction calls generalizing n with
  | nil =>
    intro vocab consistent covered _
    rw [List.take_nil]
    exact exact_of_covered consistent covered
  | cons call calls ih =>
    intro vocab consistent covered clean
    cases n with
    | zero => exact exact_of_covered consistent covered
    | succ n =>
      obtain ⟨hconsistent, hcovered⟩ := step_keeps consistent covered clean.1
      exact ih n _ hconsistent hcovered clean.2

/-- Two slots with one text, the one that the index does not lead to taken for another. -/
def keepingCalls : List Call :=
  [.addToken [97] 0 .Normal, .addToken [97] 0 .Normal, .setToken 0 [98] 0 .Normal]

theorem run_exact_keeping : (run {} (keepingCalls.take 3)).Exact := by
  refine run_exact keepingCalls ⟨Or.inr (by decide), Or.inr (by decide), Or.inr (Or.inr ?_), trivial⟩ 3
  rintro ⟨record, hrecord, -, -, hfind, -⟩
  obtain rfl := Option.some.inj hrecord
  revert hfind
  decide

/-- Two slots with one text, the one that the index leads to taken for another. -/
def orphaningCalls : List Call :=
  [.addToken [97] 0 .Normal, .addToken [97] 0 .Normal, .setToken 1 [98] 0 .Normal]

theorem orphaningCalls_lost :
    (run {} orphaningCalls).records[0]? = some ⟨[97], 0, 0, .Normal⟩ ∧
      (run {} orphaningCalls).findId [97] = kInvalidToken ∧ ¬ (run {} orphaningCalls).Exact := by
  refine ⟨by decide, by decide, fun h => ?_⟩
  obtain ⟨other, -, hvalid, -, hfind⟩ :=
    h.complete ⟨[97], 0, 0, .Normal⟩ (List.mem_of_getElem? (i := 0) (by decide)) (by decide)
  have hnone : (run {} orphaningCalls).findId [97] = kInvalidToken := by decide
  rw [TokenRecord.isValid, ← hfind, hnone] at hvalid
  cases hvalid

end Vocab

end JobTokenizer
