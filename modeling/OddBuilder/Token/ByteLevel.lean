import OddBuilder.Token.ByteEncoder

/-!
# The other byte alphabet

`ByteLevel` keeps tables and a UTF-8 reader of its own. Its alphabet is that of the
GPT-2 encoder, so each one reads what the other writes.
-/

namespace JobTokenizer

open List Gpt2ByteEncoder

namespace ByteLevel

open Gpt2ByteEncoderTable

def appendUtf8 (cp : Nat) (out : Text) : Text :=
  if cp ≤ 0x7F then out ++ [UInt8.ofNat cp]
  else if cp ≤ 0x7FF then
    out ++ [UInt8.ofNat (0xC0 ||| ((cp >>> 6) &&& 0x1F)), UInt8.ofNat (0x80 ||| (cp &&& 0x3F))]
  else if cp ≤ 0xFFFF then
    out ++ [UInt8.ofNat (0xE0 ||| ((cp >>> 12) &&& 0x0F)),
      UInt8.ofNat (0x80 ||| ((cp >>> 6) &&& 0x3F)), UInt8.ofNat (0x80 ||| (cp &&& 0x3F))]
  else
    out ++ [UInt8.ofNat (0xF0 ||| ((cp >>> 18) &&& 0x07)),
      UInt8.ofNat (0x80 ||| ((cp >>> 12) &&& 0x3F)), UInt8.ofNat (0x80 ||| ((cp >>> 6) &&& 0x3F)),
      UInt8.ofNat (0x80 ||| (cp &&& 0x3F))]

/-- The code point in front of a text and what follows it. The bytes behind the first are not looked
at for their kind. -/
def readUtf8 (input : Text) : Option (Nat × Text) :=
  match input with
  | [] => none
  | c0 :: rest =>
    if c0 &&& 0x80 == 0 then some (c0.toNat, rest)
    else if c0 &&& 0xE0 == 0xC0 then
      match rest with
      | c1 :: rest => some (((c0 &&& 0x1F).toNat <<< 6) ||| (c1 &&& 0x3F).toNat, rest)
      | _ => none
    else if c0 &&& 0xF0 == 0xE0 then
      match rest with
      | c1 :: c2 :: rest =>
        some (((c0 &&& 0x0F).toNat <<< 12) ||| ((c1 &&& 0x3F).toNat <<< 6) ||| (c2 &&& 0x3F).toNat, rest)
      | _ => none
    else if c0 &&& 0xF8 == 0xF0 then
      match rest with
      | c1 :: c2 :: c3 :: rest =>
        some (((c0 &&& 0x07).toNat <<< 18) ||| ((c1 &&& 0x3F).toNat <<< 12) |||
          ((c2 &&& 0x3F).toNat <<< 6) ||| (c3 &&& 0x3F).toNat, rest)
      | _ => none
    else none

/-- A loop that marks `count` bytes from `i` on. -/
def mark (used : List Bool) (i : Nat) : Nat → List Bool
  | 0 => used
  | count + 1 => mark (used.set i true) (i + 1) count

/-- The bytes that stand for themselves: from `!` to `~`, 0xA1 to 0xAC and 0xAE to 0xFF. -/
def used : List Bool :=
  mark (mark (mark (List.replicate 256 false) 33 94) 0xA1 12) 0xAE 82

/-- The loop that fills the table, from a byte on. -/
def unicodeEntries (i next : Nat) : List Bool → List Nat
  | [] => []
  | true :: used => i :: unicodeEntries (i + 1) next used
  | false :: used => next :: unicodeEntries (i + 1) (next + 1) used

def byteToUnicodeTable : List Nat := unicodeEntries 0 256 used

/-- `emplace` of an `unordered_map`: a key that is there keeps its value. -/
def emplace (table : List (Nat × UInt8)) (cp : Nat) (byte : UInt8) : List (Nat × UInt8) :=
  if (table.lookup cp).isSome then table else table ++ [(cp, byte)]

/-- The loop over the forward table from a byte on. -/
def byteEntries (table : List (Nat × UInt8)) (i : Nat) : List Nat → List (Nat × UInt8)
  | [] => table
  | cp :: forward => byteEntries (emplace table cp (UInt8.ofNat i)) (i + 1) forward

def unicodeToByteTable : List (Nat × UInt8) := byteEntries [] 0 byteToUnicodeTable

def encode (input : Text) : Text :=
  input.foldl (fun result byte => appendUtf8 ((byteToUnicodeTable[byte.toNat]?).getD 0) result) []

/-- The loop of `decode`, for at most `turns` turns; each one takes a byte at least. -/
def decodeFrom (table : List (Nat × UInt8)) : Nat → Text → Text
  | 0, _ => []
  | turns + 1, input =>
    match readUtf8 input with
    | none => []
    | some (cp, rest) =>
      match table.lookup cp with
      | some byte => byte :: decodeFrom table turns rest
      | none => decodeFrom table turns rest

def decode (input : Text) : Text := decodeFrom unicodeToByteTable input.length input

theorem appendUtf8_eq (cp : Nat) (out : Text) : appendUtf8 cp out = out ++ utf8 cp := by
  unfold appendUtf8 utf8
  by_cases h1 : cp ≤ 0x7F
  · rw [if_pos h1, if_pos h1]
  by_cases h2 : cp ≤ 0x7FF
  · rw [if_neg h1, if_neg h1, if_pos h2, if_pos h2]
  by_cases h3 : cp ≤ 0xFFFF
  · rw [if_neg h1, if_neg h1, if_neg h2, if_neg h2, if_pos h3, if_pos h3]
  · rw [if_neg h1, if_neg h1, if_neg h2, if_neg h2, if_neg h3, if_neg h3]

theorem mark_length (used : List Bool) (i count : Nat) : (mark used i count).length = used.length := by
  induction count generalizing used i with
  | zero => rfl
  | succ count ih => rw [mark, ih, length_set]

theorem mark_getD {used : List Bool} {i count k : Nat} (hk : k < used.length) :
    (mark used i count).getD k false = (decide (i ≤ k ∧ k < i + count) || used.getD k false) := by
  induction count generalizing used i with
  | zero =>
    have hempty : ¬ (i ≤ k ∧ k < i + 0) := by omega
    rw [mark, decide_eq_false hempty, Bool.false_or]
  | succ count ih =>
    rw [mark, ih (by rw [length_set]; exact hk)]
    by_cases heq : i = k
    · subst heq
      have hin : i ≤ i ∧ i < i + (count + 1) := by omega
      rw [decide_eq_true hin, getD_eq_getElem?_getD, List.getElem?_set_self hk]
      exact Bool.or_true _
    · have hiff : i + 1 ≤ k ∧ k < i + 1 + count ↔ i ≤ k ∧ k < i + (count + 1) := by omega
      rw [decide_eq_decide.mpr hiff, getD_eq_getElem?_getD, List.getElem?_set_ne heq,
        ← getD_eq_getElem?_getD]

/-- The marked bytes are the direct bytes of the other table. -/
theorem used_getD {k : Nat} (hk : k < 256) : used.getD k false = isDirectByte k := by
  have hlast : (List.replicate 256 false).getD k false = false := by
    rw [getD_eq_getElem?_getD, List.getElem?_replicate, if_pos hk]
    rfl
  rw [used, mark_getD (by simpa only [mark_length, length_replicate] using hk),
    mark_getD (by simpa only [mark_length, length_replicate] using hk),
    mark_getD (by simpa only [length_replicate] using hk), hlast, isDirectByte, Bool.eq_iff_iff]
  simp only [Bool.or_eq_true, Bool.and_eq_true, decide_eq_true_eq, Bool.false_eq_true, or_false]
  omega

theorem unicodeEntries_eq {used : List Bool} {i : Nat} (next : Nat)
    (h : ∀ k < used.length, used.getD k false = isDirectByte (i + k)) :
    unicodeEntries i next used = encodeEntries i next used.length := by
  induction used generalizing i next with
  | nil => rfl
  | cons direct used ih =>
    have hfirst := h 0 (Nat.succ_pos _)
    have hrest : ∀ k < used.length, used.getD k false = isDirectByte (i + 1 + k) := by
      intro k hk
      have hnext := h (k + 1) (Nat.succ_lt_succ hk)
      rwa [getD_cons_succ, Nat.add_comm k, ← Nat.add_assoc] at hnext
    subst hfirst
    cases hdirect : isDirectByte i with
    | true => rw [unicodeEntries, length_cons, encodeEntries, if_pos hdirect, ih next hrest]
    | false =>
      rw [unicodeEntries, length_cons, encodeEntries, if_neg (by rw [hdirect]; decide),
        ih (next + 1) hrest]

theorem byteToUnicodeTable_eq : byteToUnicodeTable = encodeTable := by
  have hlength : used.length = 256 := by
    rw [used, mark_length, mark_length, mark_length, length_replicate]
  rw [byteToUnicodeTable, unicodeEntries_eq 256 (fun k hk => ?_), hlength]
  · rfl
  · rw [Nat.zero_add, used_getD (hlength ▸ hk)]

theorem encode_eq (input : Text) : encode input = (Gpt2ByteEncoder.encode input).flatten := by
  suffices h : ∀ out, input.foldl
      (fun result byte => appendUtf8 ((byteToUnicodeTable[byte.toNat]?).getD 0) result) out =
        out ++ (Gpt2ByteEncoder.encode input).flatten from h []
  induction input with
  | nil => simp [Gpt2ByteEncoder.encode]
  | cons byte input ih =>
    intro out
    rw [foldl_cons, ih, appendUtf8_eq, byteToUnicodeTable_eq, append_assoc]
    rfl

/-- What the stricter reader reads this one reads too. -/
theorem readUtf8_of_nextUtf8 {input rest : Text} {cp : Nat} (h : nextUtf8 input = some (cp, rest)) :
    readUtf8 input = some (cp, rest) := by
  cases input with
  | nil => cases h
  | cons c0 input =>
    simp only [nextUtf8, readUtf8] at h ⊢
    split_ifs at h ⊢
    · exact h
    · obtain ⟨input⟩ := input
      · cases h
      · simp only at h ⊢
        split_ifs at h
        exact h
    · obtain _ | ⟨c1, ⟨input⟩⟩ := input
      · cases h
      · cases h
      · simp only at h ⊢
        split_ifs at h
        exact h
    · obtain _ | ⟨c1, _ | ⟨c2, ⟨input⟩⟩⟩ := input
      · cases h
      · cases h
      · cases h
      · simp only at h ⊢
        split_ifs at h
        exact h

theorem lookup_emplace (table : List (Nat × UInt8)) (key cp : Nat) (byte : UInt8) :
    (emplace table key byte).lookup cp =
      (table.lookup cp).or (if cp = key then some byte else none) := by
  unfold emplace
  split
  · rename_i hsome
    by_cases heq : cp = key
    · obtain ⟨value, hvalue⟩ := Option.isSome_iff_exists.mp hsome
      rw [heq, hvalue]
      rfl
    · rw [if_neg heq, Option.or_none]
  · rw [lookup_append]
    congr 1
    by_cases heq : cp = key
    · rw [if_pos heq, lookup_cons, beq_iff_eq.mpr heq]
    · rw [if_neg heq, lookup_cons, beq_eq_false_iff_ne.mpr heq]
      rfl

theorem byteEntries_keeps {table : List (Nat × UInt8)} {cp : Nat} {byte : UInt8}
    (h : table.lookup cp = some byte) (i : Nat) (forward : List Nat) :
    (byteEntries table i forward).lookup cp = some byte := by
  induction forward generalizing table i with
  | nil => exact h
  | cons first forward ih =>
    refine ih ?_ (i + 1)
    rw [lookup_emplace, h]
    rfl

/-- Different code points lead back to the bytes they were entered for. -/
theorem lookup_byteEntries {table : List (Nat × UInt8)} {i j cp : Nat} {forward : List Nat}
    (distinct : forward.Nodup) (fresh : ∀ cp ∈ forward, table.lookup cp = none)
    (h : forward[j]? = some cp) :
    (byteEntries table i forward).lookup cp = some (UInt8.ofNat (i + j)) := by
  induction forward generalizing table i j with
  | nil => cases h
  | cons first forward ih =>
    obtain ⟨hfirst, hrest⟩ := nodup_cons.mp distinct
    obtain ⟨hnone, hfresh⟩ := forall_mem_cons.mp fresh
    cases j with
    | zero =>
      obtain rfl := Option.some.inj h
      refine byteEntries_keeps ?_ (i + 1) forward
      rw [lookup_emplace, hnone, if_pos rfl]
      rfl
    | succ j =>
      have hstill : ∀ cp ∈ forward, (emplace table first (UInt8.ofNat i)).lookup cp = none := by
        intro cp hmem
        have hne : cp ≠ first := fun heq => hfirst (heq ▸ hmem)
        rw [lookup_emplace, hfresh cp hmem, if_neg hne]
        rfl
      rw [byteEntries, ih hrest hstill h, Nat.add_assoc, Nat.add_comm 1 j]

theorem lookup_symbol {byte : UInt8} {cp : Nat} (h : encodeTable[byte.toNat]? = some cp) :
    unicodeToByteTable.lookup cp = some byte := by
  have hnodup := encodeTable_nodup
  rw [unicodeToByteTable, byteToUnicodeTable_eq]
  generalize encodeTable = forward at h hnodup
  have hlookup := @lookup_byteEntries [] 0 byte.toNat cp forward hnodup (fun _ _ => rfl) h
  rwa [Nat.zero_add, UInt8.ofNat_toNat] at hlookup

theorem flatten_encode_cons (byte : UInt8) (bytes : Text) :
    (Gpt2ByteEncoder.encode (byte :: bytes)).flatten =
      Gpt2ByteEncoder.symbol byte ++ (Gpt2ByteEncoder.encode bytes).flatten := rfl

theorem decodeFrom_cons {table : List (Nat × UInt8)} {turns : Nat} {input rest : Text} {cp : Nat}
    {byte : UInt8} (hread : readUtf8 input = some (cp, rest)) (hfind : table.lookup cp = some byte) :
    decodeFrom table (turns + 1) input = byte :: decodeFrom table turns rest := by
  rw [decodeFrom, hread]
  simp [hfind]

theorem readUtf8_symbol (byte : UInt8) (rest : Text) :
    ∃ cp, readUtf8 (symbol byte ++ rest) = some (cp, rest) ∧
      unicodeToByteTable.lookup cp = some byte := by
  obtain ⟨cp, hentry, hnext⟩ := symbol_entry byte
  exact ⟨cp, readUtf8_of_nextUtf8 (nextUtf8_append hnext), lookup_symbol hentry⟩

theorem decodeFrom_symbols {bytes : Text} {turns : Nat} (enough : bytes.length ≤ turns) :
    decodeFrom unicodeToByteTable turns (Gpt2ByteEncoder.encode bytes).flatten = bytes := by
  induction bytes generalizing turns with
  | nil => cases turns <;> rfl
  | cons byte bytes ih =>
    obtain ⟨cp, hread, hfind⟩ := readUtf8_symbol byte (Gpt2ByteEncoder.encode bytes).flatten
    cases turns with
    | zero => exact absurd enough (Nat.not_succ_le_zero _)
    | succ turns =>
      rw [flatten_encode_cons, decodeFrom_cons hread hfind, ih (Nat.le_of_succ_le_succ enough)]

theorem length_le_symbols (bytes : Text) :
    bytes.length ≤ (Gpt2ByteEncoder.encode bytes).flatten.length := by
  induction bytes with
  | nil => exact Nat.le_refl 0
  | cons byte bytes ih =>
    have hpos := length_pos_of_ne_nil (symbol_ne_nil byte)
    rw [flatten_encode_cons, length_append, length_cons]
    omega

theorem decode_encode (input : Text) : decode (encode input) = input := by
  rw [encode_eq]
  exact decodeFrom_symbols (length_le_symbols input)

end ByteLevel

namespace Gpt2ByteEncoder

/-- Groups of the symbols of bytes are the symbols of groups of the bytes. -/
theorem groups_of_encode {bytes : Text} {groups : List (List Text)} (h : groups.flatten = encode bytes) :
    ∃ pieces : List Text, groups = pieces.map encode ∧ pieces.flatten = bytes := by
  induction groups generalizing bytes with
  | nil =>
    refine ⟨[], rfl, ?_⟩
    exact (map_eq_nil_iff.mp h.symm).symm
  | cons group groups ih =>
    obtain ⟨piece, rest, rfl, hpiece, hrest⟩ := map_eq_append_iff.mp h.symm
    obtain ⟨pieces, hgroups, hpieces⟩ := ih hrest.symm
    refine ⟨piece :: pieces, ?_, ?_⟩
    · rw [map_cons, ← hgroups, encode, hpiece]
    · rw [flatten_cons, hpieces]

theorem decode_groups {bytes : Text} {groups : List (List Text)} (h : groups.flatten = encode bytes) :
    decode (groups.map List.flatten) = bytes := by
  obtain ⟨pieces, rfl, rfl⟩ := groups_of_encode h
  rw [map_map]
  exact decode_pieces pieces

/-- The symbols of the bytes may be grouped into tokens in any way, and the other implementation of
the alphabet writes and reads the same text. -/
theorem interchangeable (bytes : Text) :
    (∀ groups : List (List Text), groups.flatten = encode bytes →
      decode (groups.map List.flatten) = bytes) ∧
    ByteLevel.encode bytes = (encode bytes).flatten ∧
    ByteLevel.decode (ByteLevel.encode bytes) = bytes :=
  ⟨fun _ h => decode_groups h, ByteLevel.encode_eq bytes, ByteLevel.decode_encode bytes⟩

end Gpt2ByteEncoder

end JobTokenizer
