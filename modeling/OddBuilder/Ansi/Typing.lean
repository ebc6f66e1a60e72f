import OddBuilder.Ansi.BoundsRuns
import OddBuilder.Ansi.Utf8

/-!
# Typing

Text through the parser: the bytes of a text reach the screen as its characters,
and what a single character does to the grid and to the cursor.
-/

namespace JobAnsi

open Utf8Decoder

namespace Terminal

variable {t : Terminal}

theorem handle_decoder (t : Terminal) (decoder : Utf8Decoder) (ch : Nat) :
    { t with decoder := decoder }.handle ch = { t.handle ch with decoder := decoder } := by
  unfold handle
  dsimp only
  split <;> rfl

theorem parseInput_chars (t : Terminal) (bytes : List UInt8) :
    t.parseInput bytes = { (t.decoder.feedAll bytes).2.foldl handle t with
      decoder := (t.decoder.feedAll bytes).1 } := by
  have hfold : ∀ (chars : List Nat) (t : Terminal) (decoder : Utf8Decoder),
      chars.foldl handle { t with decoder := decoder } =
        { chars.foldl handle t with decoder := decoder } := by
    intro chars
    induction chars with
    | nil => exact fun _ _ => rfl
    | cons ch chars ih =>
      intro t decoder
      rw [List.foldl_cons, handle_decoder, ih, List.foldl_cons]
  unfold parseInput
  induction bytes generalizing t with
  | nil => rfl
  | cons b bytes ih =>
    rw [List.foldl_cons, ih, feed]
    cases hfed : (t.decoder.feed b).2 with
    | none =>
      simp only [feedAll, hfed, Option.toList_none, List.nil_append]
      rw [hfold]
    | some ch =>
      have hhandle := handle_decoder t (t.decoder.feed b).1 ch
      simp only [feedAll, hfed, Option.toList_some, List.singleton_append, List.foldl_cons]
      rw [hhandle, hfold]

theorem handle_ground (hground : t.parser.state = .ground) {ch : Nat} (hch : ch ≠ 0x1B) :
    t.handle ch = { t with screen := t.screen.handleGround ch } := by
  have hhandled : t.parser.handleCodepoint ch = (t.parser, some (.ground ch)) := by
    simp [ANSIParser.handleCodepoint, hground, hch]
  rw [handle, hhandled]
  rfl

/-- A text in the ground state reaches the screen character by character. -/
theorem parseInput_text (hdecoder : t.decoder = {}) (hground : t.parser.state = .ground)
    {text : List Nat} (htext : ∀ ch ∈ text, Scalar ch ∧ ch ≠ 0x1B) :
    (t.parseInput (text.flatMap encode)).screen = text.foldl Screen.handleGround t.screen := by
  rw [parseInput_chars, hdecoder, feedAll_encodes fun ch hch => (htext ch hch).1]
  clear hdecoder
  induction text generalizing t with
  | nil => rfl
  | cons ch text ih =>
    rw [List.foldl_cons, handle_ground hground (htext ch (by simp)).2,
      ih (by exact hground) fun c hc => htext c (List.mem_cons_of_mem _ hc)]
    rfl

end Terminal

namespace Screen

variable {s : Screen}

/-- No wrap is pending any more. -/
def settled (s : Screen) : Screen := { s with wrapPending := false }

theorem setCursor_eq (h : s.Geometry) {row col : Int} (hrow : 0 ≤ row ∧ row < s.rowCount)
    (hcol : 0 ≤ col ∧ col < s.columnCount) :
    s.setCursor row col =
      { s with wrapPending := false, cursor := { s.cursor with row := row, column := col } } := by
  have hr : clamp row 0 (s.cursor.maxRows - 1) = row := by
    rw [h.maxRows_eq]
    exact clamp_self hrow.1 (by omega)
  have hc : clamp col 0 (s.cursor.maxCols - 1) = col := by
    rw [h.maxCols_eq]
    exact clamp_self hcol.1 (by omega)
  rw [setCursor, clamp_self (n := row) hrow.1 (by omega), clamp_self (n := col) hcol.1 (by omega),
    Cursor.setPosition, hr, hc]

/-- A cursor that is put where it stands. -/
theorem setCursor_self (h : s.Geometry) : s.setCursor s.cursor.row s.cursor.column = s.settled :=
  setCursor_eq h h.row_bounds h.column_bounds

/-- The clamp at the end of the ground state only settles. -/
theorem setCursor_clamped (h : s.Geometry) :
    s.setCursor (min s.cursor.row (s.rowCount - 1)) (min s.cursor.column (s.columnCount - 1)) =
      s.settled := by
  have hrow := h.row_bounds
  have hcolumn := h.column_bounds
  rw [min_eq_left (by omega), min_eq_left (by omega), setCursor_self h]

theorem charset_scrollUpIn (s : Screen) (top bottom n : Int) :
    (s.scrollUpIn top bottom n).charset = s.charset :=
  scrollUpIn_same charset (fun _ _ => rfl) (fun _ _ => rfl) (fun _ _ _ => rfl) s top bottom n

theorem charset_wrapNow (s : Screen) : s.wrapNow.charset = s.charset := by
  unfold wrapNow
  split
  · dsimp only
    split
    · exact charset_scrollUpIn _ _ _ _
    · rfl
  · rfl

theorem putPrintable_translated (s : Screen) (ch : Nat) :
    s.putPrintable (s.charset.applyCharset ch) = s.putPrintable ch := by
  simp [putPrintable, charset_wrapNow, CharsetTranslator.applyCharset_idem]

/-- A printable character through the parser is one through `putChar`, with no wrap pending. -/
theorem handleGround_printable (h : s.Geometry) {ch : Nat} (hch : 0x20 ≤ ch) :
    s.handleGround ch = (s.putPrintable ch).settled := by
  have hput : s.putChar (s.charset.applyCharset ch) = s.putPrintable ch := by
    rw [putChar_printable s (s.charset.printable_applyCharset hch), putPrintable_translated]
  have hground : (if ch = 0x0D then s.setCursor s.cursor.row 0
      else if ch = 0x0A then s.lineFeed
      else if ch = 0x08 then s.moveCursor 0 (-1)
      else if ch = 0x09 then s.tab
      else if 0x20 ≤ ch then s.putChar (s.charset.applyCharset ch) else s) = s.putPrintable ch := by
    rw [if_neg (by omega), if_neg (by omega), if_neg (by omega), if_neg (by omega), if_pos hch, hput]
  unfold handleGround
  rw [hground]
  exact setCursor_clamped (h.putPrintable ch)

theorem setAttributes_char (s : Screen) (held : List Ref) (attr : Attributes) (cell : Cell) :
    (s.setAttributes held attr cell).1.char = cell.char := by
  unfold setAttributes
  split <;> rfl

end Screen

end JobAnsi
