import OddBuilder.Token.Vocab

/-!
# Byte encoders

A tokenizer symbol for every byte. The raw encoder uses the byte itself, the GPT-2
encoder the UTF-8 text of a printable code point. A code point is a number.
-/

namespace JobTokenizer

open List

namespace Gpt2ByteEncoderTable

def CodePointTableSize : Nat := 324

def isDirectByte (byte : Nat) : Bool :=
  (33 ≤ byte && byte ≤ 126) || (161 ≤ byte && byte ≤ 172) || (174 ≤ byte && byte ≤ 255)

/-- The loop of `createEncodeTable` from a byte on, for `count` bytes. -/
def encodeEntries (byte nextCodePoint : Nat) : Nat → List Nat
  | 0 => []
  | count + 1 =>
    if isDirectByte byte then byte :: encodeEntries (byte + 1) nextCodePoint count
    else nextCodePoint :: encodeEntries (byte + 1) (nextCodePoint + 1) count

def encodeTable : List Nat := encodeEntries 0 256 256

/-- The loop of `createDecodeTable` over the entries of the encode table from a byte on. -/
def decodeEntries (table : List (Option UInt8)) (byte : Nat) : List Nat → List (Option UInt8)
  | [] => table
  | codePoint :: codePoints =>
    decodeEntries (table.set codePoint (some (UInt8.ofNat byte))) (byte + 1) codePoints

/-- `none` where the table holds `-1`. -/
def decodeTable : List (Option UInt8) :=
  decodeEntries (List.replicate CodePointTableSize none) 0 encodeTable

def utf8 (codePoint : Nat) : Text :=
  if codePoint ≤ 0x7F then [UInt8.ofNat codePoint]
  else if codePoint ≤ 0x7FF then
    [UInt8.ofNat (0xC0 ||| ((codePoint >>> 6) &&& 0x1F)), UInt8.ofNat (0x80 ||| (codePoint &&& 0x3F))]
  else if codePoint ≤ 0xFFFF then
    [UInt8.ofNat (0xE0 ||| ((codePoint >>> 12) &&& 0x0F)),
      UInt8.ofNat (0x80 ||| ((codePoint >>> 6) &&& 0x3F)), UInt8.ofNat (0x80 ||| (codePoint &&& 0x3F))]
  else
    [UInt8.ofNat (0xF0 ||| ((codePoint >>> 18) &&& 0x07)),
      UInt8.ofNat (0x80 ||| ((codePoint >>> 12) &&& 0x3F)),
      UInt8.ofNat (0x80 ||| ((codePoint >>> 6) &&& 0x3F)), UInt8.ofNat (0x80 ||| (codePoint &&& 0x3F))]

def isContinuation (byte : UInt8) : Bool := byte &&& 0xC0 == 0x80

/-- The code point in front of a text and what follows it. -/
def nextUtf8 (input : Text) : Option (Nat × Text) :=
  match input with
  | [] => none
  | first :: rest =>
    if first &&& 0x80 == 0 then some (first.toNat, rest)
    else if first &&& 0xE0 == 0xC0 then
      match rest with
      | second :: rest =>
        if isContinuation second then
          some (((first &&& 0x1F).toNat <<< 6) ||| (second &&& 0x3F).toNat, rest)
        else none
      | _ => none
    else if first &&& 0xF0 == 0xE0 then
      match rest with
      | second :: third :: rest =>
        if isContinuation second && isContinuation third then
          some (((first &&& 0x0F).toNat <<< 12) ||| ((second &&& 0x3F).toNat <<< 6) |||
            (third &&& 0x3F).toNat, rest)
        else none
      | _ => none
    else if first &&& 0xF8 == 0xF0 then
      match rest with
      | second :: third :: fourth :: rest =>
        if isContinuation second && isContinuation third && isContinuation fourth then
          some (((first &&& 0x07).toNat <<< 18) ||| ((second &&& 0x3F).toNat <<< 12) |||
            ((third &&& 0x3F).toNat <<< 6) ||| (fourth &&& 0x3F).toNat, rest)
        else none
      | _ => none
    else none

end Gpt2ByteEncoderTable

namespace Gpt2ByteEncoder

open Gpt2ByteEncoderTable

/-- The symbol of one byte. -/
def symbol (byte : UInt8) : Text := utf8 ((encodeTable[byte.toNat]?).getD 0)

def encode (input : Text) : List Text := input.map symbol

/-- The inner loop of `decode` over one symbol, for at most `turns` turns; `none` is the early return. -/
def decodeSymbol : Nat → Text → Option Text
  | _, [] => some []
  | 0, _ :: _ => none
  | turns + 1, text => do
    let (codePoint, rest) ← nextUtf8 text
    let entry ← decodeTable[codePoint]?
    let byte ← entry
    let output ← decodeSymbol turns rest
    some (byte :: output)

/-- The bytes of all symbols, or the empty string when one of them cannot be decoded. -/
def decode (input : List Text) : Text :=
  ((input.mapM fun symbol => decodeSymbol symbol.length symbol).map List.flatten).getD []

theorem nextUtf8_append {input rest tail : Text} {codePoint : Nat}
    (h : nextUtf8 input = some (codePoint, tail)) :
    nextUtf8 (input ++ rest) = some (codePoint, tail ++ rest) := by
  cases input with
  | nil => cases h
  | cons first input =>
    simp only [nextUtf8, cons_append] at h ⊢
    split_ifs at h ⊢ with h1 h2 h3 h4
    · obtain ⟨rfl, rfl⟩ := Prod.mk.inj (Option.some.inj h)
      rfl
    · match input, h with
      | second :: input, h =>
        simp only [cons_append] at h ⊢
        split_ifs at h ⊢
        obtain ⟨rfl, rfl⟩ := Prod.mk.inj (Option.some.inj h)
        rfl
    · match input, h with
      | second :: third :: input, h =>
        simp only [cons_append] at h ⊢
        split_ifs at h ⊢
        obtain ⟨rfl, rfl⟩ := Prod.mk.inj (Option.some.inj h)
        rfl
    · match input, h with
      | second :: third :: fourth :: input, h =>
        simp only [cons_append] at h ⊢
        split_ifs at h ⊢
        obtain ⟨rfl, rfl⟩ := Prod.mk.inj (Option.some.inj h)
        rfl

/-- The loop that fills the decode table leaves an entry alone that no code point names. -/
theorem decodeEntries_other {table : List (Option UInt8)} {byte codePoint : Nat} {codePoints : List Nat}
    (h : codePoint ∉ codePoints) :
    (decodeEntries table byte codePoints)[codePoint]? = table[codePoint]? := by
  induction codePoints generalizing table byte with
  | nil => rfl
  | cons first codePoints ih =>
    obtain ⟨hfirst, hrest⟩ := not_or.mp (fun hor => h (mem_cons.mpr hor))
    rw [decodeEntries, ih hrest, List.getElem?_set_ne (Ne.symm hfirst)]

/-- Code points that are all different lead back to the bytes they were entered for. -/
theorem decodeEntries_getElem? {table : List (Option UInt8)} {byte i codePoint : Nat}
    {codePoints : List Nat} (distinct : codePoints.Nodup)
    (inTable : ∀ codePoint ∈ codePoints, codePoint < table.length)
    (h : codePoints[i]? = some codePoint) :
    (decodeEntries table byte codePoints)[codePoint]? = some (some (UInt8.ofNat (byte + i))) := by
  induction codePoints generalizing table byte i with
  | nil => cases h
  | cons first codePoints ih =>
    obtain ⟨hfirst, hrest⟩ := nodup_cons.mp distinct
    cases i with
    | zero =>
      obtain rfl := Option.some.inj h
      rw [decodeEntries, decodeEntries_other hfirst,
        List.getElem?_set_self (inTable first (mem_cons_self ..))]
      rfl
    | succ i =>
      have htable : ∀ codePoint ∈ codePoints,
          codePoint < (table.set first (some (UInt8.ofNat byte))).length := by
        intro codePoint hmem
        rw [length_set]
        exact inTable codePoint (mem_cons_of_mem _ hmem)
      rw [decodeEntries, ih hrest htable h, Nat.add_assoc, Nat.add_comm 1 i]

/-- The byte of a code point: below 256 itself, above in the order of the gaps. -/
def byteOf (codePoint : Nat) : Nat :=
  if codePoint < 256 then codePoint
  else if codePoint < 289 then codePoint - 256
  else if codePoint < 323 then codePoint - 289 + 127
  else 173

set_option maxRecDepth 4096 in
theorem encodeTable_nodup : encodeTable.Nodup := by
  have hbytes : encodeTable.map byteOf = List.range 256 := by decide
  refine List.Nodup.of_map byteOf ?_
  rw [hbytes]
  exact nodup_range

set_option maxRecDepth 4096 in
theorem encodeTable_lt : ∀ codePoint ∈ encodeTable, codePoint < CodePointTableSize := by
  decide

set_option maxRecDepth 4096 in
/-- Every code point of the table is read back from its text. -/
theorem nextUtf8_utf8 : ∀ codePoint < CodePointTableSize,
    nextUtf8 (utf8 codePoint) = some (codePoint, []) := by
  decide

set_option maxRecDepth 4096 in
/-- The symbol of a byte is the text of its code point. -/
theorem symbol_entry (byte : UInt8) : ∃ codePoint,
    encodeTable[byte.toNat]? = some codePoint ∧ nextUtf8 (symbol byte) = some (codePoint, []) := by
  have hlength : encodeTable.length = 256 := by decide
  have hlt : byte.toNat < encodeTable.length := by
    rw [hlength]
    exact byte.toNat_lt
  have hentry : encodeTable[byte.toNat]? = some encodeTable[byte.toNat] := List.getElem?_eq_getElem hlt
  refine ⟨encodeTable[byte.toNat], hentry, ?_⟩
  rw [symbol, hentry, Option.getD_some]
  exact nextUtf8_utf8 _ (encodeTable_lt _ (getElem_mem hlt))

/-- Every byte has a code point that leads back to it. -/
theorem symbol_decodes (byte : UInt8) : ∃ codePoint,
    nextUtf8 (symbol byte) = some (codePoint, []) ∧ decodeTable[codePoint]? = some (some byte) := by
  obtain ⟨codePoint, hentry, hnext⟩ := symbol_entry byte
  refine ⟨codePoint, hnext, ?_⟩
  have hdecode : decodeTable[codePoint]? = some (some (UInt8.ofNat (0 + byte.toNat))) :=
    decodeEntries_getElem? encodeTable_nodup (by simpa using encodeTable_lt) hentry
  rwa [Nat.zero_add, UInt8.ofNat_toNat] at hdecode

theorem symbol_ne_nil (byte : UInt8) : symbol byte ≠ [] := by
  obtain ⟨codePoint, hnext, -⟩ := symbol_decodes byte
  intro hnil
  rw [hnil] at hnext
  cases hnext

/-- A text made of the symbols of bytes decodes to the bytes. -/
theorem decodeSymbol_symbols (bytes : Text) (turns : Nat)
    (enough : ((encode bytes).flatten).length ≤ turns) :
    decodeSymbol turns (encode bytes).flatten = some bytes := by
  induction bytes generalizing turns with
  | nil => cases turns <;> rfl
  | cons byte bytes ih =>
    obtain ⟨codePoint, hnext, hbyte⟩ := symbol_decodes byte
    have htext : (encode (byte :: bytes)).flatten = symbol byte ++ (encode bytes).flatten := rfl
    have hlong : 0 < (symbol byte).length := length_pos_iff.mpr (symbol_ne_nil byte)
    rw [htext, length_append] at enough
    cases turns with
    | zero => omega
    | succ turns =>
      have hstep : nextUtf8 (symbol byte ++ (encode bytes).flatten) =
          some (codePoint, [] ++ (encode bytes).flatten) := nextUtf8_append hnext
      have hrest := ih turns (by omega)
      rw [htext]
      cases hcons : symbol byte ++ (encode bytes).flatten with
      | nil => exact absurd (append_eq_nil_iff.mp hcons).1 (symbol_ne_nil byte)
      | cons first tail =>
        rw [hcons] at hstep
        simp [decodeSymbol, hstep, hbyte, hrest]

/-- Symbols that are each made of the symbols of bytes decode to all of these bytes. -/
theorem decode_pieces (pieces : List Text) :
    decode (pieces.map fun bytes => (encode bytes).flatten) = pieces.flatten := by
  have hall : (pieces.map fun bytes => (encode bytes).flatten).mapM
      (fun symbol => decodeSymbol symbol.length symbol) = some pieces := by
    induction pieces with
    | nil => rfl
    | cons bytes pieces ih =>
      simp only [map_cons, mapM_cons, decodeSymbol_symbols bytes _ (Nat.le_refl _),
        Option.bind_eq_bind, Option.bind_some, ih, Option.pure_def]
  rw [decode, hall]
  rfl

end Gpt2ByteEncoder

namespace RawByteEncoder

def encode (input : Text) : List Text := input.map fun character => [character]

def decode (input : List Text) : Text := input.flatten

end RawByteEncoder

end JobTokenizer
