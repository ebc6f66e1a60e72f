import OddBuilder.Token.ByteFallback
import OddBuilder.Token.Runtime

/-!
# Decoding by the algorithms

Every algorithm writes the text of tokens into a buffer of the caller by a loop of
its own, and inherits a `decode` that allocates the buffer. The runtime does not use
either: it asks for the symbols of the tokens and hands them to the byte encoder.
-/

namespace JobTokenizer

open List

/-- The text that one piece stands for: a byte, or the piece without what `strip` takes off. -/
def pieceText (strip : Text → Text) (piece : Text) : Text :=
  match ByteFallback.parseByteToken piece with
  | some rawByte => [rawByte]
  | none => strip piece

/-- The loop of `decode` over a buffer of `capacity` bytes. The buffer is what has been written. -/
def decodeLoop (strip : Text → Text) (vocab : Vocab) (capacity : Nat) (written : Text) :
    List TokenId → Text
  | [] => written
  | id :: tokens =>
    if id = kInvalidToken then decodeLoop strip vocab capacity written tokens
    else
      let piece := vocab.tokenText id
      if piece.isEmpty then decodeLoop strip vocab capacity written tokens
      else
        match ByteFallback.parseByteToken piece with
        | some rawByte =>
          if capacity ≤ written.length then written
          else decodeLoop strip vocab capacity (written ++ [rawByte]) tokens
        | none =>
          let written := written ++ (strip piece).take (capacity - written.length)
          if capacity ≤ written.length then written
          else decodeLoop strip vocab capacity written tokens

/-- `decode` with the vocabulary that the algorithm points to, or none. -/
def decodeInto (strip : Text → Text) (vocab : Option Vocab) (tokens : List TokenId) (capacity : Nat) :
    Text :=
  if tokens.isEmpty || capacity == 0 then []
  else
    match vocab with
    | none => []
    | some vocab => decodeLoop strip vocab capacity [] tokens

def Bpe.decode : Option Vocab → List TokenId → Nat → Text := decodeInto id

def Unigram.decode : Option Vocab → List TokenId → Nat → Text := decodeInto id

/-- Whether a piece begins with the marker of a continuation, `m_prefix`. -/
def Wordpiece.isContinuation (marker piece : Text) : Bool :=
  !marker.isEmpty && marker.isPrefixOf piece

/-- A marker is structural and not part of the text. -/
def Wordpiece.strip (marker piece : Text) : Text :=
  if Wordpiece.isContinuation marker piece then piece.drop marker.length else piece

def Wordpiece.decode (marker : Text) : Option Vocab → List TokenId → Nat → Text :=
  decodeInto (Wordpiece.strip marker)

/-- The algorithms, with what decoding reads of them beside the vocabulary. -/
inductive ITokenAlgo where
  | bpe
  | unigram
  | wordpiece (marker : Text)

namespace ITokenAlgo

def decode : ITokenAlgo → Option Vocab → List TokenId → Nat → Text
  | .bpe => Bpe.decode
  | .unigram => Unigram.decode
  | .wordpiece marker => Wordpiece.decode marker

/-- The overload that allocates the buffer itself and cuts it to what has been written. -/
def decodeString (algo : ITokenAlgo) (vocab : Option Vocab) (tokens : List TokenId) : Text :=
  algo.decode vocab tokens (tokens.length * 16 + 64)

def isContinuation : ITokenAlgo → Text → Bool
  | .wordpiece marker => Wordpiece.isContinuation marker
  | _ => fun _ => false

def strip : ITokenAlgo → Text → Text
  | .wordpiece marker => Wordpiece.strip marker
  | _ => id

/-- The texts of the valid tokens of a list, one after the other. -/
def text (algo : ITokenAlgo) (vocab : Option Vocab) (tokens : List TokenId) : Text :=
  match vocab with
  | none => []
  | some vocab => (tokens.filterMap vocab.record).flatMap fun record => pieceText algo.strip record.text

theorem strip_eq (algo : ITokenAlgo) (piece : Text) :
    algo.strip piece = piece ∧ algo.isContinuation piece = false ∨
      (algo.strip piece).length < piece.length ∧ algo.isContinuation piece = true := by
  cases algo with
  | bpe => exact Or.inl ⟨rfl, rfl⟩
  | unigram => exact Or.inl ⟨rfl, rfl⟩
  | wordpiece marker =>
    cases hmark : Wordpiece.isContinuation marker piece with
    | false =>
      refine Or.inl ⟨?_, hmark⟩
      simp [strip, Wordpiece.strip, hmark]
    | true =>
      refine Or.inr ⟨?_, hmark⟩
      simp only [Wordpiece.isContinuation, Bool.and_eq_true, Bool.not_eq_true', isEmpty_eq_false_iff,
        isPrefixOf_iff_prefix] at hmark
      have hpos : 0 < marker.length := length_pos_iff.mpr hmark.1
      have hle : marker.length ≤ piece.length := hmark.2.length_le
      simp only [strip, Wordpiece.strip, Wordpiece.isContinuation, isPrefixOf_iff_prefix.mpr hmark.2,
        isEmpty_eq_false_iff.mpr hmark.1, Bool.not_false, Bool.and_self, if_true, length_drop]
      omega

theorem pieceText_nil (algo : ITokenAlgo) : pieceText algo.strip [] = [] := by
  rcases algo.strip_eq [] with ⟨heq, -⟩ | ⟨hlt, -⟩
  · exact heq
  · exact absurd hlt (Nat.not_lt_zero _)

/-- An invalid token has no text. -/
theorem text_some (algo : ITokenAlgo) (vocab : Vocab) (tokens : List TokenId) :
    algo.text (some vocab) tokens =
      tokens.flatMap fun id => pieceText algo.strip (vocab.tokenText id) := by
  induction tokens with
  | nil => rfl
  | cons id tokens ih =>
    simp only [text] at ih
    cases hrecord : vocab.record id with
    | none =>
      simp [text, ih, Vocab.tokenText, hrecord, pieceText_nil]
    | some record =>
      simp [text, ih, Vocab.tokenText, hrecord]

theorem decode_eq (algo : ITokenAlgo) : algo.decode = decodeInto algo.strip := by
  cases algo <;> rfl

/-- What the loop leaves in the buffer: what fits of the text of all tokens. -/
theorem decodeLoop_eq (algo : ITokenAlgo) (vocab : Vocab) (capacity : Nat) (written : Text)
    (tokens : List TokenId) (fits : written.length ≤ capacity) :
    decodeLoop algo.strip vocab capacity written tokens =
      (written ++ algo.text (some vocab) tokens).take capacity := by
  simp only [text_some]
  induction tokens generalizing written with
  | nil =>
    rw [flatMap_nil, append_nil, take_of_length_le fits]
    rfl
  | cons id tokens ih =>
    have hskip : vocab.tokenText id = [] →
        (written ++ (id :: tokens).flatMap fun id => pieceText algo.strip (vocab.tokenText id)) =
          written ++ tokens.flatMap fun id => pieceText algo.strip (vocab.tokenText id) := by
      intro hnil
      rw [flatMap_cons, hnil, pieceText_nil, nil_append]
    rw [decodeLoop]
    split
    · rename_i hinvalid
      have hnil : vocab.tokenText id = [] := by rw [hinvalid]; rfl
      rw [ih written fits, hskip hnil]
    · dsimp only
      split
      · rename_i hempty
        rw [ih written fits, hskip (isEmpty_iff.mp hempty)]
      · rw [flatMap_cons, ← append_assoc]
        cases hparse : ByteFallback.parseByteToken (vocab.tokenText id) with
        | some rawByte =>
          have hpiece : pieceText algo.strip (vocab.tokenText id) = [rawByte] := by
            simp [pieceText, hparse]
          dsimp only
          rw [hpiece]
          split
          · -- the buffer is full, so nothing that follows is kept
            rename_i hfull
            rw [append_assoc, take_append_of_le_length hfull, take_of_length_le fits]
          · exact ih _ (by rw [length_append, length_singleton]; omega)
        | none =>
          have hpiece : pieceText algo.strip (vocab.tokenText id) = algo.strip (vocab.tokenText id) := by
            simp [pieceText, hparse]
          dsimp only
          rw [hpiece]
          have hwritten : written ++ (algo.strip (vocab.tokenText id)).take (capacity - written.length) =
              (written ++ algo.strip (vocab.tokenText id)).take capacity := by
            rw [take_append, take_of_length_le fits]
          rw [hwritten]
          split
          · rename_i hfull
            have hlong : capacity ≤ (written ++ algo.strip (vocab.tokenText id)).length :=
              Nat.le_trans hfull (length_take_le' ..)
            rw [take_append_of_le_length hlong]
          · rename_i hroom
            have hshort : (written ++ algo.strip (vocab.tokenText id)).length ≤ capacity := by
              rw [length_take] at hroom
              omega
            rw [take_of_length_le hshort]
            exact ih _ hshort

theorem decode_take (algo : ITokenAlgo) (vocab : Option Vocab) (tokens : List TokenId) (capacity : Nat) :
    algo.decode vocab tokens capacity = (algo.text vocab tokens).take capacity := by
  rw [decode_eq]
  unfold decodeInto
  split
  · rename_i hnone
    rcases Bool.or_eq_true_iff.mp hnone with hnone | hnone
    · rw [isEmpty_iff.mp hnone]
      cases vocab <;> simp [text]
    · rw [beq_iff_eq.mp hnone, take_zero]
  · cases vocab with
    | none => simp [text]
    | some vocab => exact decodeLoop_eq algo vocab capacity [] tokens (Nat.zero_le _)

/-- A buffer that is large enough takes the whole text; the allocated one does so exactly if the
text is no longer than it. -/
theorem decodeString_full_iff (algo : ITokenAlgo) (vocab : Option Vocab) (tokens : List TokenId) :
    (∀ capacity, (algo.text vocab tokens).length ≤ capacity →
      algo.decode vocab tokens capacity = algo.text vocab tokens) ∧
    (algo.decodeString vocab tokens = algo.text vocab tokens ↔
      (algo.text vocab tokens).length ≤ tokens.length * 16 + 64) := by
  constructor
  · intro capacity room
    rw [decode_take, take_of_length_le room]
  · rw [decodeString, decode_take]
    constructor
    · intro h
      have hlength := congrArg List.length h
      rw [length_take] at hlength
      omega
    · exact fun room => take_of_length_le room

/-- One token with a text of 81 bytes. -/
def longVocab : Vocab := (({} : Vocab).addToken (List.replicate 81 97) 0 .Normal).1

/-- Of a token of 81 bytes the last one is lost. -/
theorem decodeString_cuts :
    ITokenAlgo.bpe.decodeString (some longVocab) [0] = List.replicate 80 97 ∧
      ITokenAlgo.bpe.text (some longVocab) [0] = List.replicate 81 97 := by
  constructor <;> decide

end ITokenAlgo

end JobTokenizer
