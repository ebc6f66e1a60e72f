import OddBuilder.Library.Traced
import OddBuilder.Token.BinaryToken

/-!
# What loading a binary file touches

The loader with a cursor into the buffer, and every access that it makes: the bytes it
copies and the records it writes to. An access is reported before it is made, so the
trace says of a file whether loading it stays in bounds.
-/

namespace JobTokenizer

open Traced Option Vocab

/-- Bytes of the buffer from an offset on, or a record of a vocabulary with so many. -/
inductive Access where
  | buffer (offset length : Nat)
  | record (index count : Nat)
deriving DecidableEq

def Access.InBounds (size : Nat) : Access → Prop
  | .buffer offset length => offset + length ≤ size
  | .record index count => index < count

namespace BufferReader

def canRead (buffer : Buffer) (cursor bytes : Nat) : Bool :=
  cursor ≤ buffer.length && bytes ≤ buffer.length - cursor

/-- `readString` at a cursor. -/
def readStringAt (buffer : Buffer) (cursor length : Nat) : Traced Access (Buffer × Nat) :=
  if canRead buffer cursor length then do
    Traced.report (.buffer cursor length)
    pure ((buffer.drop cursor).take length, cursor + length)
  else Traced.fail

/-- `read` of an unsigned integer at a cursor. -/
def readAt (width : Nat) (buffer : Buffer) (cursor : Nat) : Traced Access (Nat × Nat) := do
  let (bytes, cursor) ← readStringAt buffer cursor width
  pure (LittleEndian.decode bytes, cursor)

/-- Reading at a cursor is reading from what the cursor has left, and stays in the buffer. -/
structure Follows {α : Type} (buffer : Buffer) (x : Traced Access (α × Nat)) (y : Option (α × Buffer)) :
    Prop where
  result : y = x.result.map fun (a, cursor) => (a, buffer.drop cursor)
  inBounds : x.Every (Access.InBounds buffer.length)
  cursor : ∀ a cursor, x.result = some (a, cursor) → cursor ≤ buffer.length

variable {α β : Type} {buffer : Buffer}

theorem Follows.pure (a : α) {cursor : Nat} (h : cursor ≤ buffer.length) :
    Follows buffer (pure (a, cursor)) (some (a, buffer.drop cursor)) where
  result := rfl
  inBounds := every_pure _
  cursor _ _ hresult := by
    obtain ⟨rfl, rfl⟩ := Prod.mk.inj (Option.some.inj hresult)
    exact h

theorem Follows.fail : Follows buffer (fail : Traced Access (α × Nat)) none where
  result := rfl
  inBounds := every_fail
  cursor _ _ hresult := nomatch hresult

theorem Follows.bind {x : Traced Access (α × Nat)} {y : Option (α × Buffer)} (h : Follows buffer x y)
    {f : α × Nat → Traced Access (β × Nat)} {g : α × Buffer → Option (β × Buffer)}
    (hnext : ∀ a cursor, cursor ≤ buffer.length → Follows buffer (f (a, cursor)) (g (a, buffer.drop cursor))) :
    Follows buffer (x >>= f) (y >>= g) := by
  rw [h.result]
  cases hx : x.result with
  | none =>
    refine ⟨?_, (every_bind x f).mpr ⟨h.inBounds, fun a ha => ?_⟩, fun a cursor ha => ?_⟩
    · simp [hx]
    · rw [hx] at ha
      cases ha
    · rw [result_bind, hx] at ha
      cases ha
  | some found =>
    obtain ⟨a, cursor⟩ := found
    have hstep := hnext a cursor (h.cursor a cursor hx)
    refine ⟨?_, (every_bind x f).mpr ⟨h.inBounds, fun b hb => ?_⟩, fun b next hb => ?_⟩
    · simp only [result_bind, hx]
      exact hstep.result
    · rw [hx] at hb
      obtain rfl := Option.some.inj hb
      exact hstep.inBounds
    · rw [result_bind, hx] at hb
      exact hstep.cursor b next hb

theorem readStringAt_follows {cursor : Nat} (h : cursor ≤ buffer.length) (length : Nat) :
    Follows buffer (readStringAt buffer cursor length) (readString (buffer.drop cursor) length) := by
  simp only [readStringAt, readString, canRead, h, decide_true, Bool.true_and, decide_eq_true_eq,
    List.length_drop]
  by_cases hroom : length ≤ buffer.length - cursor
  · rw [if_pos hroom, if_neg (Nat.not_lt.mpr hroom)]
    refine ⟨by simp, ?_, fun a next ha => ?_⟩
    · rw [every_bind]
      refine ⟨(every_report _).mpr ?_, fun _ _ => every_pure _⟩
      simp only [Access.InBounds]
      omega
    · obtain ⟨-⟩ := Prod.mk.inj (Option.some.inj ha)
      omega
  · rw [if_neg hroom, if_pos (Nat.lt_of_not_le hroom)]
    exact .fail

theorem readAt_follows {cursor : Nat} (h : cursor ≤ buffer.length) (width : Nat) :
    Follows buffer (readAt width buffer cursor) (read width (buffer.drop cursor)) :=
  (readStringAt_follows h width).bind fun _ _ hcursor => .pure _ hcursor

end BufferReader

namespace BinaryHeader

/-- `sizeof(BinaryHeader)`. -/
def kSize : Nat := 64

/-- A reader that takes `n` bytes and looks at no others. -/
def Consumes {α : Type} (n : Nat) (r : Buffer → Option (α × Buffer)) : Prop :=
  ∃ value : Buffer → α, ∀ input,
    r input = if input.length < n then none else some (value (input.take n), input.drop n)

theorem Consumes.pure {α : Type} (a : α) : Consumes 0 fun input => some (a, input) :=
  ⟨fun _ => a, fun _ => rfl⟩

theorem Consumes.read (width : Nat) : Consumes width (BufferReader.read width) := by
  refine ⟨LittleEndian.decode, fun input => ?_⟩
  simp only [BufferReader.read, BufferReader.readString]
  split <;> rfl

theorem Consumes.bind {α β : Type} {n m : Nat} {r : Buffer → Option (α × Buffer)}
    {f : α → Buffer → Option (β × Buffer)} (hr : Consumes n r) (hf : ∀ a, Consumes m (f a)) :
    Consumes (n + m) fun input => r input >>= fun found => f found.1 found.2 := by
  obtain ⟨value, hvalue⟩ := hr
  choose next hnext using hf
  refine ⟨fun bytes => next (value (bytes.take n)) (bytes.drop n), fun input => ?_⟩
  simp only [hvalue]
  by_cases hshort : input.length < n
  · rw [if_pos hshort, if_pos (by omega)]
    rfl
  · rw [if_neg hshort]
    simp only [hnext]
    have hiff : input.length - n < m ↔ input.length < n + m := by omega
    simp [hiff, List.take_take, List.drop_take]

theorem consumes_readIds (count : Nat) : Consumes (4 * count) (readIds count) := by
  induction count with
  | zero => exact .pure []
  | succ count ih =>
    have h := (Consumes.read 4).bind fun id => ih.bind fun ids => Consumes.pure (Int32.ofNat id :: ids)
    have hsize : 4 * (count + 1) = 4 + (4 * count + 0) := by omega
    rw [hsize]
    exact h

theorem consumes_read : Consumes kSize read :=
  (Consumes.read 4).bind fun _ => (Consumes.read 4).bind fun _ => (Consumes.read 4).bind fun _ =>
    (Consumes.read 4).bind fun _ => (consumes_readIds headerOrder.length).bind fun _ =>
      (Consumes.read 1).bind fun _ => (Consumes.read 1).bind fun _ => (Consumes.read 1).bind fun _ =>
        (Consumes.read 1).bind fun _ => Consumes.pure _

/-- `read` of the header at a cursor: one copy of all its bytes. -/
def readAt (buffer : Buffer) (cursor : Nat) : Traced Access (BinaryHeader × Nat) := do
  let (bytes, cursor) ← BufferReader.readStringAt buffer cursor kSize
  match read bytes with
  | none => Traced.fail
  | some (header, _) => pure (header, cursor)

/-- The fields are those of the bytes that are copied. -/
theorem read_eq_copy (input : Buffer) :
    read input = BufferReader.readString input kSize >>= fun copied =>
      (read copied.1).map fun found => (found.1, copied.2) := by
  obtain ⟨value, hvalue⟩ := consumes_read
  simp only [BufferReader.readString, hvalue input]
  split
  · rfl
  · have hcopy : ¬ (input.take kSize).length < kSize := by
      rw [List.length_take]
      omega
    simp only [bind_eq_bind, bind_some, hvalue (input.take kSize), if_neg hcopy,
      map_some, List.take_take, Nat.min_self]

theorem readAt_follows {buffer : Buffer} {cursor : Nat} (h : cursor ≤ buffer.length) :
    BufferReader.Follows buffer (readAt buffer cursor) (read (buffer.drop cursor)) := by
  rw [read_eq_copy]
  refine (BufferReader.readStringAt_follows h kSize).bind fun bytes next hnext => ?_
  dsimp only
  cases read bytes with
  | none => exact .fail
  | some found => exact .pure found.1 hnext

end BinaryHeader

namespace BinaryToken

open BufferReader

variable {buffer : Buffer} {cursor : Nat}

def readTokensAt (buffer : Buffer) : Nat → Nat → Traced Access (List ParsedToken × Nat)
  | 0, cursor => pure ([], cursor)
  | count + 1, cursor => do
    let (tokenLength, cursor) ← readAt 2 buffer cursor
    let (text, cursor) ← readStringAt buffer cursor tokenLength
    let (score, cursor) ← readAt 4 buffer cursor
    let (rawType, cursor) ← readAt 1 buffer cursor
    let (tokens, cursor) ← readTokensAt buffer count cursor
    pure (⟨text, UInt32.ofNat score, rawType⟩ :: tokens, cursor)

def readMergesAt (buffer : Buffer) : Nat → Nat → Traced Access (List (Text × Text) × Nat)
  | 0, cursor => pure ([], cursor)
  | count + 1, cursor => do
    let (leftLength, cursor) ← readAt 2 buffer cursor
    let (left, cursor) ← readStringAt buffer cursor leftLength
    let (rightLength, cursor) ← readAt 2 buffer cursor
    let (right, cursor) ← readStringAt buffer cursor rightLength
    let (merges, cursor) ← readMergesAt buffer count cursor
    pure ((left, right) :: merges, cursor)

/-- A template without bytes is not read at all. -/
def readTemplateAt (buffer : Buffer) (length cursor : Nat) : Traced Access (Text × Nat) :=
  if 0 < length then readStringAt buffer cursor length else pure ([], cursor)

/-- What a whole file holds. -/
structure ParsedFile where
  header : BinaryHeader
  chatTemplate : Text
  tokens : List ParsedToken
  merges : List (Text × Text)

/-- The first half of `load`, which reads into temporaries. -/
def parseAt (buffer : Buffer) : Traced Access (ParsedFile × Nat) := do
  let (header, cursor) ← BinaryHeader.readAt buffer 0
  if header.magic ≠ MAGIC then Traced.fail
  else if header.version ≠ CURRENT_VERSION then Traced.fail
  else do
    let (chatTemplate, cursor) ← readTemplateAt buffer header.chatTemplateLen cursor
    let (tokens, cursor) ← readTokensAt buffer header.vocabSize cursor
    let (merges, cursor) ← readMergesAt buffer header.mergesSize cursor
    pure (⟨header, chatTemplate, tokens, merges⟩, cursor)

/-- The loop that commits the tokens, with the record that each turn writes the type to. -/
def commitTokensAt (vocab : Vocab) (i : Nat) : List ParsedToken → Traced Access Vocab
  | [] => pure vocab
  | token :: tokens => do
    let vocab := vocab.setToken (Int32.ofNat i) token.text token.score .Normal
    Traced.report (.record i vocab.records.length)
    commitTokensAt (vocab.setRecordType i (mapTokenType token.rawType)) (i + 1) tokens

/-- `load` with its accesses. -/
def loadAt (buffer : Buffer) : Traced Access BinaryToken := do
  let (file, _) ← parseAt buffer
  let vocab ← commitTokensAt {} 0 file.tokens
  if 0 < vocab.records.length then
    pure (commit file.header file.chatTemplate file.tokens file.merges)
  else Traced.fail

/-- The file at the front of a buffer, if there is one, and what follows it. -/
def parse (buffer : Buffer) : Option (ParsedFile × Buffer) := do
  let (header, input) ← BinaryHeader.read buffer
  if header.magic ≠ MAGIC then none
  else if header.version ≠ CURRENT_VERSION then none
  else
    let (chatTemplate, input) ← BufferReader.readString input header.chatTemplateLen
    let (tokens, input) ← readTokens header.vocabSize input
    let (merges, input) ← readMerges header.mergesSize input
    some (⟨header, chatTemplate, tokens, merges⟩, input)

theorem load_eq_parse (buffer : Buffer) :
    load buffer = parse buffer >>= fun (file, _) =>
      let token := commit file.header file.chatTemplate file.tokens file.merges
      if 0 < token.base.vocab.records.length then some token else none := by
  simp only [load, parse]
  cases BinaryHeader.read buffer with
  | none => rfl
  | some found =>
    obtain ⟨header, input⟩ := found
    simp only [bind_eq_bind, bind_some]
    split_ifs
    · rfl
    · rfl
    · cases BufferReader.readString input header.chatTemplateLen with
      | none => rfl
      | some found =>
        obtain ⟨chatTemplate, input⟩ := found
        simp only [bind_some]
        cases readTokens header.vocabSize input with
        | none => rfl
        | some found =>
          obtain ⟨tokens, input⟩ := found
          simp only [bind_some]
          cases readMerges header.mergesSize input with
          | none => rfl
          | some found => rfl

theorem readTokensAt_follows (count : Nat) (h : cursor ≤ buffer.length) :
    Follows buffer (readTokensAt buffer count cursor) (readTokens count (buffer.drop cursor)) := by
  induction count generalizing cursor with
  | zero => exact .pure [] h
  | succ count ih =>
    exact (readAt_follows h 2).bind fun tokenLength _ h => (readStringAt_follows h tokenLength).bind fun _ _ h =>
      (readAt_follows h 4).bind fun _ _ h => (readAt_follows h 1).bind fun _ _ h =>
        (ih h).bind fun _ _ h => .pure _ h

theorem readMergesAt_follows (count : Nat) (h : cursor ≤ buffer.length) :
    Follows buffer (readMergesAt buffer count cursor) (readMerges count (buffer.drop cursor)) := by
  induction count generalizing cursor with
  | zero => exact .pure [] h
  | succ count ih =>
    exact (readAt_follows h 2).bind fun leftLength _ h => (readStringAt_follows h leftLength).bind fun _ _ h =>
      (readAt_follows h 2).bind fun rightLength _ h => (readStringAt_follows h rightLength).bind fun _ _ h =>
        (ih h).bind fun _ _ h => .pure _ h

theorem readTemplateAt_follows (length : Nat) (h : cursor ≤ buffer.length) :
    Follows buffer (readTemplateAt buffer length cursor)
      (BufferReader.readString (buffer.drop cursor) length) := by
  unfold readTemplateAt
  split
  · exact readStringAt_follows h length
  · obtain rfl : length = 0 := by omega
    exact .pure [] h

theorem parseAt_follows (buffer : Buffer) : Follows buffer (parseAt buffer) (parse buffer) := by
  refine (BinaryHeader.readAt_follows (Nat.zero_le _)).bind fun header cursor h => ?_
  dsimp only
  split_ifs
  · exact .fail
  · exact .fail
  · exact (readTemplateAt_follows header.chatTemplateLen h).bind fun _ _ h =>
      (readTokensAt_follows header.vocabSize h).bind fun _ _ h =>
        (readMergesAt_follows header.mergesSize h).bind fun _ _ h => .pure _ h

theorem parseAt_result (buffer : Buffer) :
    (parseAt buffer).result.map Prod.fst = (parse buffer).map Prod.fst := by
  rw [(parseAt_follows buffer).result, map_map]
  rfl

theorem commitTokensAt_result (vocab : Vocab) (i : Nat) (tokens : List ParsedToken) :
    (commitTokensAt vocab i tokens).result = some (commitTokens vocab i tokens) := by
  induction tokens generalizing vocab i with
  | nil => rfl
  | cons token tokens ih =>
    simp [commitTokensAt, ih, commitTokens]

/-- The loader with its accesses loads what the loader loads. -/
theorem loadAt_result (buffer : Buffer) : (loadAt buffer).result = load buffer := by
  have hparse := parseAt_result buffer
  rw [load_eq_parse]
  simp only [loadAt, result_bind]
  cases hfile : (parseAt buffer).result with
  | none =>
    rw [hfile, map_none, eq_comm, map_eq_none_iff] at hparse
    rw [hparse]
    rfl
  | some found =>
    rw [hfile, eq_comm] at hparse
    obtain ⟨⟨file⟩, hsome, rfl⟩ := map_eq_some_iff.mp hparse
    simp only [hsome, bind_some, commitTokensAt_result]
    by_cases hrecords : 0 < (commitTokens {} 0 found.1.tokens).records.length
    · rw [if_pos hrecords]
      exact (if_pos hrecords).symm
    · rw [if_neg hrecords]
      exact (if_neg hrecords).symm

/-- A token gets a record only if it has a text and its index is an id. -/
theorem setToken_length {vocab : Vocab} {i : Nat} (hlength : vocab.records.length = i)
    (hi : i ≤ kMaxRecords) (text : Text) (score : UInt32) (type : StructuralType) :
    (vocab.setToken (Int32.ofNat i) text score type).records.length =
      if text ≠ [] ∧ i < kMaxRecords then i + 1 else i := by
  by_cases hdecline : Int32.ofNat i < 0 ∨ text = []
  · have hsame : vocab.setToken (Int32.ofNat i) text score type = vocab := by
      refine if_pos ?_
      simpa using hdecline
    rw [hsame, hlength, if_neg]
    rintro ⟨htext, hlt⟩
    rcases hdecline with hnegative | hempty
    · exact Int32.not_lt.mpr (ofNat_nonneg hlt) hnegative
    · exact htext hempty
  · obtain ⟨hnonneg, htext⟩ := not_or.mp hdecline
    have hlt : i < kMaxRecords := by
      rcases Nat.lt_or_eq_of_le hi with hlt | rfl
      · exact hlt
      · exact absurd (show Int32.ofNat kMaxRecords < 0 by decide) hnonneg
    rw [if_pos ⟨htext, hlt⟩, setToken, if_neg (by simpa using ⟨Int32.not_lt.mp hnonneg, htext⟩)]
    simp only [List.length_set, resize, List.length_append, List.length_replicate, index_ofNat hlt]
    omega

/-- The loop stays in bounds exactly if every token has a text and their indexes are ids. -/
theorem commitTokensAt_every {vocab : Vocab} {i : Nat} (hlength : vocab.records.length = i)
    (hi : i ≤ kMaxRecords) (size : Nat) (tokens : List ParsedToken) :
    (commitTokensAt vocab i tokens).Every (Access.InBounds size) ↔
      i + tokens.length ≤ kMaxRecords ∧ ∀ token ∈ tokens, token.text ≠ [] := by
  induction tokens generalizing vocab i with
  | nil => simp [commitTokensAt, hi]
  | cons token tokens ih =>
    have hset := setToken_length hlength hi token.text token.score .Normal
    rw [commitTokensAt, every_bind, every_report, List.length_cons, List.forall_mem_cons]
    simp only [result_report, forall_const]
    by_cases hrecord : token.text ≠ [] ∧ i < kMaxRecords
    · rw [if_pos hrecord] at hset
      have hlengthNext : ((vocab.setToken (Int32.ofNat i) token.text token.score .Normal).setRecordType i
          (mapTokenType token.rawType)).records.length = i + 1 := by
        rw [setRecordType, List.length_modify, hset]
      rw [ih hlengthNext hrecord.2, hset]
      have hsum : i + 1 + tokens.length = i + (tokens.length + 1) := by omega
      rw [hsum]
      exact ⟨fun h => ⟨h.2.1, hrecord.1, h.2.2⟩, fun h => ⟨Nat.lt_succ_self i, h.1, h.2.2⟩⟩
    · rw [if_neg hrecord] at hset
      rw [hset]
      refine iff_of_false (fun h => Nat.lt_irrefl _ h.1) fun h => hrecord ⟨h.2.1, ?_⟩
      omega

theorem commitTokensAt_records (vocab : Vocab) (i : Nat) (tokens : List ParsedToken) :
    (commitTokensAt vocab i tokens).Every fun access => ∃ index count, access = .record index count := by
  induction tokens generalizing vocab i with
  | nil => exact every_pure _
  | cons token tokens ih =>
    rw [commitTokensAt, every_bind, every_report]
    exact ⟨⟨_, _, rfl⟩, fun _ _ => ih _ _⟩

/-- The accesses of loading are those of parsing and, of a file, those of committing its tokens. -/
theorem loadAt_every (P : Access → Prop) (buffer : Buffer) :
    (loadAt buffer).Every P ↔ (parseAt buffer).Every P ∧
      ∀ file cursor, (parseAt buffer).result = some (file, cursor) →
        (commitTokensAt {} 0 file.tokens).Every P := by
  have hlast : ∀ (file : ParsedFile) (vocab : Vocab), (if 0 < vocab.records.length then
      pure (commit file.header file.chatTemplate file.tokens file.merges)
      else fail : Traced Access BinaryToken).Every P := by
    intro file vocab
    split
    · exact every_pure _
    · exact every_fail
  rw [loadAt, every_bind]
  refine and_congr_right fun _ => ⟨fun h file cursor hfile => ?_, fun h found hfound => ?_⟩
  · exact ((every_bind _ _).mp (h (file, cursor) hfile)).1
  · exact (every_bind _ _).mpr ⟨h found.1 found.2 hfound, fun vocab _ => hlast found.1 vocab⟩

/-- Loading reads inside the buffer, whatever that holds. It writes to records that exist exactly
if the buffer holds no file, or one with a text for every token and no more tokens than ids. -/
theorem load_access_iff (buffer : Buffer) :
    (loadAt buffer).result = load buffer ∧
    (∀ offset length, Access.buffer offset length ∈ (loadAt buffer).events →
      offset + length ≤ buffer.length) ∧
    ((∀ access ∈ (loadAt buffer).events, access.InBounds buffer.length) ↔
      ∀ file rest, parse buffer = some (file, rest) →
        file.tokens.length ≤ kMaxRecords ∧ ∀ token ∈ file.tokens, token.text ≠ []) := by
  have hparse := parseAt_follows buffer
  have hempty : ({} : Vocab).records.length = 0 := rfl
  refine ⟨loadAt_result buffer, ?_, ?_⟩
  · have hreads : (loadAt buffer).Every fun access =>
        ∀ offset length, access = .buffer offset length → offset + length ≤ buffer.length := by
      refine (loadAt_every _ buffer).mpr ⟨fun access haccess offset length hread => ?_,
        fun file _ _ access haccess offset length hread => ?_⟩
      · have hin := hparse.inBounds access haccess
        rwa [hread] at hin
      · obtain ⟨index, count, hrecord⟩ := commitTokensAt_records {} 0 file.tokens access haccess
        rw [hread] at hrecord
        cases hrecord
    exact fun offset length hmem => hreads _ hmem offset length rfl
  · refine (loadAt_every (Access.InBounds buffer.length) buffer).trans ?_
    rw [hparse.result]
    constructor
    · rintro ⟨-, hcommit⟩ file rest hfile
      obtain ⟨⟨file, cursor⟩, hresult, hsame⟩ := map_eq_some_iff.mp hfile
      obtain ⟨rfl, -⟩ := Prod.mk.inj hsame
      have htokens := (commitTokensAt_every hempty (Nat.zero_le _) _ _).mp (hcommit _ _ hresult)
      rwa [Nat.zero_add] at htokens
    · intro h
      refine ⟨hparse.inBounds, fun file cursor hresult => ?_⟩
      have htokens := h file (buffer.drop cursor) (by rw [hresult]; rfl)
      refine (commitTokensAt_every hempty (Nat.zero_le _) _ _).mpr ?_
      rwa [Nat.zero_add]

/-- A file with one token, and that without a text. -/
def emptyTokenFile : Buffer :=
  (⟨MAGIC, 1, 0, 0, List.replicate 11 kInvalidToken, CURRENT_VERSION, 1, 0, 0⟩ : BinaryHeader).write ++
    writeToken ⟨[], 0, 0⟩

/-- The type of the token is written to a record that does not exist. -/
theorem emptyTokenFile_access :
    (loadAt emptyTokenFile).events = [.buffer 0 64, .buffer 64 2, .buffer 66 0, .buffer 66 4,
      .buffer 70 1, .record 0 0] ∧
    ¬ ∀ access ∈ (loadAt emptyTokenFile).events, access.InBounds emptyTokenFile.length := by
  have hevents : (loadAt emptyTokenFile).events = [.buffer 0 64, .buffer 64 2, .buffer 66 0,
      .buffer 66 4, .buffer 70 1, .record 0 0] := by decide
  refine ⟨hevents, fun h => ?_⟩
  rw [hevents] at h
  exact Nat.lt_irrefl 0 (h (.record 0 0) (by decide))

end BinaryToken

end JobTokenizer
