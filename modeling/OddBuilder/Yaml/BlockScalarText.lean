import Mathlib.Data.List.Flatten
import Mathlib.Tactic.IntervalCases
import OddBuilder.Yaml.BlockScalar

/-!
# Text of a literal block scalar

The decoder gives the lines that were written back, except that a line of spaces comes
back empty wherever it stands. So a text survives if it has such lines at its end only.
-/

namespace JobYaml

open YamlBlockScalarDecoder YamlParserUtils List

section Decoder

variable {indent p : Nat}
variable {lines : List BodyLine}

/-- A written line as `splitLines` leaves it. -/
def rawLine (indent : Nat) (line : BodyLine) : Line :=
  ⟨written indent line, [], 0, false, false, true⟩

theorem splitLoop_written (hplain : Plain lines) {turns : Nat} (hturns : lines.length ≤ turns) :
    splitLoop turns (writeBody indent lines) = lines.map (rawLine indent) := by
  induction lines generalizing turns with
  | nil =>
    cases turns with
    | zero => rfl
    | succ turns => rfl
  | cons line lines ih =>
    obtain ⟨⟨hbreak⟩, htail⟩ := forall_mem_cons.mp hplain
    obtain ⟨turns, rfl⟩ := Nat.exists_eq_succ_of_ne_zero (Nat.ne_zero_of_lt hturns)
    have hbody := writeBody_cons indent line lines []
    rw [append_nil, append_nil] at hbody
    have hne : writeBody indent (line :: lines) ≠ [] := by
      rw [hbody]
      simp
    rw [splitLoop, if_neg hne, hbody, cutLine_line (written_unbroken hbreak)]
    exact congrArg (rawLine indent line :: ·) (ih htail (Nat.le_of_succ_le_succ hturns))

theorem splitLines_written (hplain : Plain lines) :
    splitLines (writeBody indent lines) = lines.map (rawLine indent) :=
  splitLoop_written hplain (length_le_writeBody indent lines)

theorem written_blank_scan {line : BodyLine} (h : Blank line.text) :
    (written indent line).drop (leadingSpaces (written indent line)) = [] := by
  rw [leadingSpaces_blank (written_blank indent h), drop_length]

/-- The first line that shows something has the indentation that was added. -/
theorem detectIndentation_written (hplain : Plain lines) (hp : p < indent)
    (hvisible : ∃ line ∈ lines, ¬Blank line.text) (hflush : FirstFlush lines) :
    detectIndentation p (lines.map (rawLine indent)) = some indent := by
  induction lines with
  | nil =>
    obtain ⟨line, hline, -⟩ := hvisible
    cases hline
  | cons line lines ih =>
    obtain ⟨⟨hbreak, htab⟩, htail⟩ := forall_mem_cons.mp hplain
    rw [map_cons, detectIndentation]
    by_cases hblank : Blank line.text
    · have hdrop : (rawLine indent line).source.drop (leadingSpaces (rawLine indent line).source) =
          [] := written_blank_scan hblank
      rw [hdrop]
      exact ih htail (later_visible hvisible hblank) (hflush.tail hblank)
    · obtain ⟨k, c, more, htext, hc, hwritten⟩ := written_visible indent hblank
      obtain rfl := hflush.visible htext
      have hsource : (rawLine indent line).source = List.replicate indent space ++ c :: more :=
        hwritten
      rw [hsource, leadingSpaces_split _ _ hc, drop_split]
      dsimp only
      rw [if_neg (visible_first htext hc hbreak htab).1, if_neg (by omega)]

/-- What comes back of a line. -/
def shown (text : Text) : Text := if Blank text then [] else text

/-- A written line as `normalizeLines` leaves it. -/
def normalLine (indent : Nat) (line : BodyLine) : Line :=
  { rawLine indent line with
    content := shown line.text
    indentation := leadingSpaces (written indent line)
    blank := decide (Blank line.text)
    moreIndented := decide (¬Blank line.text ∧ indent < leadingSpaces (written indent line)) }

theorem normalizeLine_written {line : BodyLine} (hbreak : ∀ c ∈ line.text, isBreak c = false)
    (htab : (line.text.dropWhile (· = space)).head? ≠ some tab) :
    normalizeLine indent (rawLine indent line) = some (normalLine indent line) := by
  rw [normalizeLine]
  by_cases hblank : Blank line.text
  · have hdrop : (rawLine indent line).source.drop (leadingSpaces (rawLine indent line).source) =
        [] := written_blank_scan hblank
    rw [hdrop]
    simp [normalLine, rawLine, shown, hblank]
  · obtain ⟨k, c, more, htext, hc, hwritten⟩ := written_visible indent hblank
    have hlead : leadingSpaces (written indent line) = indent + k := by
      rw [hwritten, leadingSpaces_split _ _ hc]
    have hsource : leadingSpaces (rawLine indent line).source = indent + k := hlead
    have hdrop : (rawLine indent line).source.drop (indent + k) = c :: more := by
      change (written indent line).drop (indent + k) = c :: more
      rw [hwritten, drop_split]
    have hcontent : (rawLine indent line).source.drop indent = line.text := by
      change (written indent line).drop indent = line.text
      rw [hwritten, htext, ← replicate_append_replicate, append_assoc, drop_left' length_replicate]
    rw [hsource, hdrop]
    dsimp only
    rw [if_neg (visible_first htext hc hbreak htab).1, hcontent]
    simp [normalLine, shown, hblank, hlead]

theorem normalizeLines_written (hplain : Plain lines) :
    normalizeLines indent (lines.map (rawLine indent)) = some (lines.map (normalLine indent)) := by
  rw [normalizeLines, mapM_map]
  induction lines with
  | nil => rfl
  | cons line lines ih =>
    obtain ⟨⟨hbreak, htab⟩, htail⟩ := forall_mem_cons.mp hplain
    rw [mapM_cons, Function.comp_apply, normalizeLine_written hbreak htab, ih htail]
    rfl

/-- Each line with the break that ends it. -/
def joined (texts : List Text) : Text := texts.flatMap fun text => text ++ [newline]

theorem appendLiteral_written (lines : List BodyLine) :
    appendLiteral (lines.map (normalLine indent)) =
      joined (lines.map fun line => shown line.text) := by
  rw [appendLiteral, joined, flatMap_map, flatMap_map]
  rfl

theorem hasTrailingBreak_written (h : lines ≠ []) :
    hasTrailingBreak (lines.map (normalLine indent)) = true := by
  rw [hasTrailingBreak, List.getLast?_map, List.getLast?_eq_getLast_of_ne_nil h]
  rfl

/-- What the decoder makes of a written body. -/
theorem decode_written {header : YamlBlockScalarHeader} (hstyle : header.style = .Literal)
    (hplain : Plain lines) {n : Nat} (hn : n ≠ 0) (hvisible : ∃ line ∈ lines, ¬Blank line.text)
    (hheader : header.indentation = n ∨ (header.indentation = 0 ∧ FirstFlush lines)) :
    decode header (writeBody (p + n) lines) p =
      some (applyChomping header.chomping true
        (joined (lines.map fun line => shown line.text))) := by
  have hcontent : resolveContentIndentation header (lines.map (rawLine (p + n))) p =
      some (p + n) := by
    rw [resolveContentIndentation]
    rcases hheader with h | ⟨h, hflush⟩
    · rw [if_pos (h ▸ hn), h]
    · rw [if_neg (not_not_intro h)]
      exact detectIndentation_written hplain (by omega) hvisible hflush
  have hne : lines ≠ [] := by
    rintro rfl
    obtain ⟨line, hline, -⟩ := hvisible
    cases hline
  rw [decode, splitLines_written hplain, hcontent]
  dsimp only [bind, Option.bind]
  rw [normalizeLines_written hplain, hstyle]
  dsimp only
  rw [hasTrailingBreak_written hne, appendLiteral_written]

end Decoder

def isBlank (text : Text) : Bool := decide (Blank text)

/-- The lines up to the last one that shows something. -/
def kept (texts : List Text) : List Text := texts.rdropWhile isBlank

/-- Lines joined, with what the chomping indicator leaves of the breaks behind them. -/
def chomped (chomping : YamlBlockScalarChomping) (count : Nat) (texts : List Text) : Text :=
  match chomping with
  | .Strip => [newline].intercalate texts
  | .Clip => [newline].intercalate texts ++ [newline]
  | .Keep => [newline].intercalate texts ++ List.replicate (count - texts.length + 1) newline

/-- The value that a literal block scalar of these lines stands for. -/
def reproduced (chomping : YamlBlockScalarChomping) (texts : List Text) : Text :=
  chomped chomping texts.length (kept texts)

/-- A line of spaces with something to see behind it is empty. -/
def SpacesEndOnly (texts : List Text) : Prop :=
  ∀ front text back, texts = front ++ text :: back → (∃ later ∈ back, ¬Blank later) →
    Blank text → text = []

section Chomping

variable {texts : List Text}

theorem trailing_blank {text : Text} (h : text ∈ texts.rtakeWhile isBlank) :
    Blank text := of_decide_eq_true (mem_rtakeWhile_imp (p := isBlank) h)

theorem kept_append (texts : List Text) :
    kept texts ++ texts.rtakeWhile isBlank = texts :=
  rdropWhile_append_rtakeWhile

theorem kept_ne_nil (hvisible : ∃ text ∈ texts, ¬Blank text) : kept texts ≠ [] := by
  intro hnil
  obtain ⟨text, hmem, htext⟩ := hvisible
  exact htext (of_decide_eq_true (rdropWhile_eq_nil_iff.mp hnil text hmem))

theorem getLast_kept (hne : kept texts ≠ []) : ¬Blank ((kept texts).getLast hne) := fun hblank =>
  rdropWhile_last_not _ _ hne (decide_eq_true hblank)

theorem spacesEndOnly_iff : SpacesEndOnly texts ↔ ∀ text ∈ kept texts, Blank text → text = [] := by
  have hsplit := kept_append texts
  constructor
  · intro h text hmem hblank
    obtain ⟨front, back, hfront⟩ := append_of_mem hmem
    have hne : kept texts ≠ [] := ne_nil_of_mem hmem
    have hlast := getLast_kept hne
    refine h front text (back ++ texts.rtakeWhile isBlank) ?_ ?_ hblank
    · rw [← cons_append, ← append_assoc, ← hfront, hsplit]
    · refine ⟨_, mem_append_left _ ?_, hlast⟩
      -- the line itself is blank, so the last one stands behind it
      rw [getLast_congr _ (by simp) hfront, getLast_append_of_ne_nil _ (by simp)] at hlast ⊢
      cases back with
      | nil => exact absurd hblank hlast
      | cons later back =>
        exact getLast_mem _
  · rintro h front text back rfl ⟨later, hlater, hvisible⟩ hblank
    rcases append_eq_append_iff.mp hsplit with ⟨more, hfront, htrailing⟩ | ⟨more, hkept, hback⟩
    · have hmem : later ∈ (front ++ text :: back).rtakeWhile isBlank := by
        rw [htrailing]
        simp [hlater]
      exact absurd (trailing_blank hmem) hvisible
    · cases more with
      | nil =>
        have hmem : later ∈ (front ++ text :: back).rtakeWhile isBlank := by
          rw [← nil_append (List.rtakeWhile _ _), ← hback]
          simp [hlater]
        exact absurd (trailing_blank hmem) hvisible
      | cons first more =>
        obtain rfl := (List.cons.inj hback).1
        apply h text _ hblank
        rw [hkept]
        simp

theorem shown_length_le (text : Text) : (shown text).length ≤ text.length := by
  rw [shown]
  split
  · exact Nat.zero_le _
  · exact Nat.le_refl _

theorem joined_cons (text : Text) (texts : List Text) :
    joined (text :: texts) = text ++ newline :: joined texts := by
  simp [joined]

theorem joined_shown_length_le (texts : List Text) :
    (joined (texts.map shown)).length ≤ (joined texts).length := by
  induction texts with
  | nil => exact Nat.le_refl _
  | cons text texts ih =>
    have := shown_length_le text
    rw [map_cons, joined_cons, joined_cons, length_append, length_append, length_cons, length_cons]
    omega

/-- Nothing is lost only where every line comes back. -/
theorem shown_of_joined (h : joined (texts.map shown) = joined texts) :
    texts.map shown = texts := by
  induction texts with
  | nil => rfl
  | cons text texts ih =>
    rw [map_cons, joined_cons, joined_cons] at h
    have hfirst := shown_length_le text
    have hrest := joined_shown_length_le texts
    have hlength := congrArg List.length h
    rw [length_append, length_append, length_cons, length_cons] at hlength
    obtain ⟨htext, htail⟩ := append_inj h (by omega)
    rw [map_cons, htext, ih (List.cons.inj htail).2]

theorem joined_eq (h : texts ≠ []) : joined texts = [newline].intercalate texts ++ [newline] := by
  induction texts with
  | nil => exact absurd rfl h
  | cons text texts ih =>
    rw [joined_cons]
    cases texts with
    | nil => simp [joined]
    | cons next texts =>
      rw [ih (cons_ne_nil _ _)]
      simp

theorem shown_kept_iff : (kept texts).map shown = kept texts ↔ SpacesEndOnly texts := by
  rw [spacesEndOnly_iff]
  constructor
  · intro h text hmem hblank
    have hsame := map_inj_left.mp (h.trans (map_id _).symm) text hmem
    rw [shown, if_pos hblank] at hsame
    exact hsame.symm
  · intro h
    refine (map_congr_left ?_).trans (map_id _)
    intro text hmem
    rw [shown]
    split
    · exact (h text hmem (by assumption)).symm
    · rfl

theorem intercalate_concat (texts : List Text) (text : Text) :
    ∃ front, [newline].intercalate (texts ++ [text]) = front ++ text := by
  induction texts with
  | nil => exact ⟨[], by simp⟩
  | cons first texts ih =>
    obtain ⟨front, hfront⟩ := ih
    refine ⟨first ++ newline :: front, ?_⟩
    rw [cons_append, intercalate_cons_of_ne_nil (by simp), hfront]
    simp

theorem trimTrailingBreaks_replicate {text : Text} (h : text.getLast? ≠ some newline) (n : Nat) :
    trimTrailingBreaks (text ++ List.replicate n newline) = text := by
  induction n with
  | zero =>
    rw [replicate_zero, append_nil, trimTrailingBreaks, rdropWhile_eq_self_iff]
    intro hne hlast
    apply h
    rw [List.getLast?_eq_getLast_of_ne_nil hne, of_decide_eq_true hlast]
  | succ n ih =>
    rw [replicate_succ', ← append_assoc, trimTrailingBreaks, rdropWhile_concat_pos _ _ _ (by simp)]
    exact ih

/-- A line that shows something does not end with a break. -/
theorem getLast_ne_newline {text : Text} (hbreak : ∀ c ∈ text, isBreak c = false)
    (hvisible : ¬Blank text) (front : Text) : (front ++ text).getLast? ≠ some newline := by
  have hne : text ≠ [] := by
    rintro rfl
    exact hvisible fun c hc => absurd hc not_mem_nil
  rw [List.getLast?_append_of_ne_nil _ hne]
  intro hnewline
  have hfalse := hbreak _ (mem_of_getLast? hnewline)
  revert hfalse
  decide

/-- What `applyChomping` leaves of the lines that come back. -/
theorem applyChomping_joined (chomping : YamlBlockScalarChomping)
    (hbreak : ∀ text ∈ texts, ∀ c ∈ text, isBreak c = false)
    (hvisible : ∃ text ∈ texts, ¬Blank text) :
    applyChomping chomping true (joined (texts.map shown)) =
      chomped chomping texts.length ((kept texts).map shown) := by
  have hne := kept_ne_nil hvisible
  have hlast := getLast_kept hne
  have hlength := congrArg List.length (kept_append texts)
  rw [length_append] at hlength
  -- the lines behind the last one that shows something come back empty
  have htrailing : (texts.rtakeWhile isBlank).map shown =
      List.replicate (texts.length - (kept texts).length) [] := by
    rw [eq_replicate_iff, length_map]
    constructor
    · omega
    · intro back hback
      obtain ⟨text, hmem, rfl⟩ := mem_map.mp hback
      exact if_pos (trailing_blank hmem)
  have hreplicate : ∀ n, joined (List.replicate n []) = List.replicate n newline := by
    intro n
    induction n with
    | zero => rfl
    | succ n ih => rw [replicate_succ, joined_cons, ih, nil_append, replicate_succ]
  have hstorage : joined (texts.map shown) = [newline].intercalate ((kept texts).map shown) ++
      List.replicate (texts.length - (kept texts).length + 1) newline := by
    conv_lhs => rw [← kept_append texts]
    rw [map_append, htrailing, joined, flatMap_append, ← joined, ← joined, hreplicate,
      joined_eq (by simpa using hne), append_assoc]
    rfl
  have hend : ([newline].intercalate ((kept texts).map shown)).getLast? ≠ some newline := by
    have hmem := (List.rdropWhile_prefix isBlank texts).subset (getLast_mem hne)
    obtain ⟨front, hfront⟩ := intercalate_concat ((kept texts).dropLast.map shown)
      ((kept texts).getLast hne)
    have hsplit : (kept texts).map shown =
        (kept texts).dropLast.map shown ++ [(kept texts).getLast hne] := by
      conv_lhs => rw [← dropLast_append_getLast hne]
      rw [map_append, map_singleton, shown, if_neg hlast]
    rw [hsplit, hfront]
    exact getLast_ne_newline (hbreak _ hmem) hlast front
  rw [hstorage]
  cases chomping with
  | Strip => rw [applyChomping, trimTrailingBreaks_replicate hend, chomped]
  | Clip => rw [applyChomping, trimTrailingBreaks_replicate hend, if_pos rfl, chomped]
  | Keep => rw [applyChomping, chomped, length_map]

theorem chomped_shown_iff (chomping : YamlBlockScalarChomping)
    (hvisible : ∃ text ∈ texts, ¬Blank text) (count : Nat) :
    chomped chomping count ((kept texts).map shown) = chomped chomping count (kept texts) ↔
      SpacesEndOnly texts := by
  rw [← shown_kept_iff]
  constructor
  · intro h
    have hne := kept_ne_nil hvisible
    have htext : [newline].intercalate ((kept texts).map shown) =
        [newline].intercalate (kept texts) := by
      cases chomping with
      | Strip => exact h
      | Clip => exact append_cancel_right h
      | Keep =>
        rw [chomped, length_map] at h
        exact append_cancel_right h
    apply shown_of_joined
    rw [joined_eq (by simpa using hne), joined_eq hne, htext]
  · intro h
    rw [h]

end Chomping

def chompingMark : YamlBlockScalarChomping → Text
  | .Clip => []
  | .Strip => [45]
  | .Keep => [43]

def indentationMark (indicator : Bool) (n : Nat) : Text :=
  if indicator then [UInt8.ofNat (48 + n)] else []

/-- The two ways to write the header of a literal block scalar. -/
def literalHeaders (chomping : YamlBlockScalarChomping) (indicator : Bool) (n : Nat) : List Text :=
  [124 :: (chompingMark chomping ++ indentationMark indicator n),
    124 :: (indentationMark indicator n ++ chompingMark chomping)]

/-- What the parser makes of them. -/
def literalHeader (chomping : YamlBlockScalarChomping) (indicator : Bool) (n : Nat) :
    YamlBlockScalarHeader :=
  ⟨.Literal, chomping, if indicator then n else 0⟩

theorem parseModifiers_digit {n : Nat} (hlow : 1 ≤ n) (hhigh : n ≤ 9)
    (header : YamlBlockScalarHeader) (hasChomping : Bool) (rest : Text) :
    parseModifiers header hasChomping false (UInt8.ofNat (48 + n) :: rest) =
      parseModifiers { header with indentation := n } hasChomping true rest := by
  interval_cases n <;> rfl

theorem parseHeader_literal {chomping : YamlBlockScalarChomping} {indicator : Bool} {n : Nat}
    (hlow : 1 ≤ n) (hhigh : n ≤ 9) {headerText : Text}
    (h : headerText ∈ literalHeaders chomping indicator n) :
    parseHeader headerText = some (literalHeader chomping indicator n) := by
  rw [literalHeaders, mem_cons, mem_singleton] at h
  rcases h with rfl | rfl
  · cases indicator with
    | false => cases chomping <;> rfl
    | true => cases chomping <;> exact parseModifiers_digit hlow hhigh _ _ []
  · cases indicator with
    | false => cases chomping <;> rfl
    | true => cases chomping <;> exact (parseModifiers_digit hlow hhigh _ _ _).trans rfl

section Whole

variable {chomping : YamlBlockScalarChomping} {indicator : Bool} {n p : Nat} {lines : List BodyLine}
  {headerText rest : Text}

theorem Literal.plain (h : Literal indicator lines) : Plain lines := fun line hline =>
  ⟨h.unbroken line hline, h.untabbed line hline⟩

theorem Literal.header (h : Literal indicator lines) (chomping : YamlBlockScalarChomping) :
    (literalHeader chomping indicator n).indentation = n ∨
      ((literalHeader chomping indicator n).indentation = 0 ∧ FirstFlush lines) := by
  cases indicator with
  | false => exact Or.inr ⟨rfl, h.flush rfl⟩
  | true => exact Or.inl rfl

/-- What the decoder makes of the lines: those up to the last one that shows something, the blank
ones empty. -/
theorem decode_literal (hlow : 1 ≤ n) (h : Literal indicator lines) :
    decode (literalHeader chomping indicator n) (writeBody (p + n) lines) p =
      some (chomped chomping lines.length ((kept (lines.map BodyLine.text)).map shown)) := by
  obtain ⟨line, hline, hvisible⟩ := h.visible
  have hbreak : ∀ text ∈ lines.map BodyLine.text, ∀ c ∈ text, isBreak c = false := by
    intro text htext
    obtain ⟨line, hline, rfl⟩ := mem_map.mp htext
    exact h.unbroken line hline
  have hjoined := applyChomping_joined chomping hbreak
    ⟨line.text, mem_map_of_mem hline, hvisible⟩
  rw [map_map, length_map] at hjoined
  rw [decode_written rfl h.plain (by omega) h.visible (h.header chomping)]
  exact congrArg some hjoined

/-- The scan finds exactly the body, and the decoder gives the text back exactly where no line of
spaces has something to see behind it. -/
theorem literal_reproduced_iff (hlow : 1 ≤ n) (hhigh : n ≤ 9) (h : Literal indicator lines)
    (hheader : headerText ∈ literalHeaders chomping indicator n) (hrest : Dedented (p + n) rest)
    (before : Text) :
    ∃ header, parseHeader headerText = some header ∧
      findBlockScalarEnd (before ++ (writeBody (p + n) lines ++ rest)) before.length p header =
        .found (before.length + (writeBody (p + n) lines).length) ∧
      (decode header (writeBody (p + n) lines) p =
          some (reproduced chomping (lines.map BodyLine.text)) ↔
        SpacesEndOnly (lines.map BodyLine.text)) := by
  refine ⟨literalHeader chomping indicator n, parseHeader_literal hlow hhigh hheader, ?_, ?_⟩
  · exact findBlockScalarEnd_written h.plain (by omega) h.visible (h.header chomping) hrest before
  · obtain ⟨line, hline, hvisible⟩ := h.visible
    have hiff := chomped_shown_iff chomping
      ⟨line.text, mem_map_of_mem (f := BodyLine.text) hline, hvisible⟩ lines.length
    rw [decode_literal hlow h, Option.some.injEq, reproduced, length_map]
    exact hiff

/-- The scalar in the parser: its value, and the lexer goes on at the line of less indentation. -/
theorem parseBlockScalar_literal (hlow : 1 ≤ n) (hhigh : n ≤ 9) (h : Literal indicator lines)
    (hheader : headerText ∈ literalHeaders chomping indicator n) (hrest : Dedented (p + n) rest)
    (before : Text) :
    parseBlockScalar (before ++ (writeBody (p + n) lines ++ rest)) headerText before.length p =
      some (chomped chomping lines.length ((kept (lines.map BodyLine.text)).map shown),
        before.length + (writeBody (p + n) lines).length) := by
  have hend := findBlockScalarEnd_written h.plain (by omega) h.visible (h.header chomping) hrest
    before
  have hbody : ((before ++ (writeBody (p + n) lines ++ rest)).drop before.length).take
      (before.length + (writeBody (p + n) lines).length - before.length) =
        writeBody (p + n) lines := by
    rw [drop_left, Nat.add_sub_cancel_left, take_left]
  rw [parseBlockScalar, parseHeader_literal hlow hhigh hheader]
  dsimp only [bind, Option.bind]
  rw [hend]
  dsimp only
  rw [hbody, decode_literal hlow h]

end Whole

/-- Two lines with an empty one between them. -/
def emptyBetween : List BodyLine := [⟨[97], false⟩, ⟨[], true⟩, ⟨[98], false⟩]

/-- Two lines with a line of one space between them. -/
def spaceBetween : List BodyLine := [⟨[97], false⟩, ⟨[32], false⟩, ⟨[98], false⟩]

theorem dedented_key : Dedented (0 + 2) [120, 10] :=
  Or.inr ⟨0, 120, [10], rfl, by decide, by decide, by decide, by decide⟩

theorem literal_emptyBetween : Literal false emptyBetween where
  unbroken := by simp [emptyBetween, isBreak, newline, carriageReturn]
  untabbed := by simp [emptyBetween, space, tab]
  visible := ⟨⟨[97], false⟩, mem_cons_self, by decide⟩
  flush := by
    rintro - line hfind
    obtain rfl := Option.some.inj hfind
    decide

theorem literal_spaceBetween : Literal false spaceBetween where
  unbroken := by simp [spaceBetween, isBreak, newline, carriageReturn]
  untabbed := by simp [spaceBetween, space, tab]
  visible := ⟨⟨[97], false⟩, mem_cons_self, by decide⟩
  flush := by
    rintro - line hfind
    obtain rfl := Option.some.inj hfind
    decide

/-- The empty line comes back. -/
theorem literal_reproduced_empty :
    ∃ header, parseHeader [124] = some header ∧
      decode header (writeBody (0 + 2) emptyBetween) 0 = some [97, 10, 10, 98, 10] := by
  have hmem : [124] ∈ literalHeaders .Clip false 2 := by decide
  obtain ⟨header, hheader, -, hiff⟩ := literal_reproduced_iff (p := 0) (by decide) (by decide)
    literal_emptyBetween hmem dedented_key []
  exact ⟨header, hheader, hiff.mpr (spacesEndOnly_iff.mpr (by decide))⟩

/-- The space does not. -/
theorem space_line_lost :
    Literal false spaceBetween ∧ Dedented (0 + 2) [120, 10] ∧ [124] ∈ literalHeaders .Clip false 2 ∧
      parseBlockScalar (writeBody (0 + 2) spaceBetween ++ [120, 10]) [124] 0 0 =
        some ([97, 10, 10, 98, 10], 12) ∧
      reproduced .Clip (spaceBetween.map BodyLine.text) = [97, 10, 32, 10, 98, 10] := by
  have hmem : [124] ∈ literalHeaders .Clip false 2 := by decide
  refine ⟨literal_spaceBetween, dedented_key, hmem, ?_, by decide⟩
  exact parseBlockScalar_literal (by decide) (by decide) literal_spaceBetween hmem dedented_key []

end JobYaml
