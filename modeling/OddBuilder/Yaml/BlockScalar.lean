import Mathlib.Data.List.DropRight
import Mathlib.Data.List.TakeWhile

/-!
# Block scalars

`YamlBlockScalarDecoder` and the scan by which the parser finds the end of a body.
Texts are bytes. The scan and the decoder each cut the source into physical lines and
look for the indentation on their own.
-/

namespace JobYaml

abbrev Text : Type := List UInt8

def space : UInt8 := 32
def tab : UInt8 := 9
def newline : UInt8 := 10
def carriageReturn : UInt8 := 13

def isBreak (c : UInt8) : Bool := c = newline || c = carriageReturn

inductive YamlBlockScalarStyle
  | Literal | Folded
deriving DecidableEq

inductive YamlBlockScalarChomping
  | Clip | Strip | Keep
deriving DecidableEq

structure YamlBlockScalarHeader where
  style : YamlBlockScalarStyle
  chomping : YamlBlockScalarChomping
  indentation : Nat
deriving DecidableEq

/-- The spaces that a text begins with. -/
def leadingSpaces (text : Text) : Nat := (text.takeWhile (· = space)).length

/-- A physical line: its bytes, whether a break ended it, and what follows. -/
def cutLine (text : Text) : Text × Bool × Text :=
  let line := text.takeWhile fun c => !isBreak c
  match text.dropWhile fun c => !isBreak c with
  | [] => (line, false, [])
  | c :: rest =>
    if c = carriageReturn && rest.head? = some newline then (line, true, rest.tail)
    else (line, true, rest)

namespace YamlBlockScalarDecoder

/-- The loop of `parseHeader` over the modifiers. -/
def parseModifiers (header : YamlBlockScalarHeader) :
    Bool → Bool → Text → Option YamlBlockScalarHeader
  | _, _, [] => some header
  | hasChomping, hasIndentation, c :: rest =>
    if c = 43 || c = 45 then
      if hasChomping then none
      else
        parseModifiers { header with chomping := if c = 43 then .Keep else .Strip } true
          hasIndentation rest
    else if 49 ≤ c && c ≤ 57 then
      if hasIndentation then none
      else parseModifiers { header with indentation := (c - 48).toNat } hasChomping true rest
    else none

def parseHeader : Text → Option YamlBlockScalarHeader
  | [] => none
  | c :: rest =>
    if c = 124 then parseModifiers ⟨.Literal, .Clip, 0⟩ false false rest
    else if c = 62 then parseModifiers ⟨.Folded, .Clip, 0⟩ false false rest
    else none

structure Line where
  source : Text
  content : Text
  indentation : Nat
  blank : Bool
  moreIndented : Bool
  hadBreak : Bool
deriving DecidableEq

/-- The loop of `splitLines`. Every turn takes at least one byte, so as many turns as bytes are
enough. -/
def splitLoop : Nat → Text → List Line
  | 0, _ => []
  | turns + 1, body =>
    if body = [] then []
    else
      let (source, hadBreak, rest) := cutLine body
      ⟨source, [], 0, false, false, hadBreak⟩ :: splitLoop turns rest

def splitLines (body : Text) : List Line := splitLoop body.length body

/-- The loop of `resolveContentIndentation`: the first line that is not blank decides. -/
def detectIndentation (parentIndentation : Nat) : List Line → Option Nat
  | [] => some (parentIndentation + 1)
  | line :: lines =>
    let indentation := leadingSpaces line.source
    match line.source.drop indentation with
    | [] => detectIndentation parentIndentation lines
    | c :: _ =>
      if c = tab then none
      else if indentation ≤ parentIndentation then none
      else some indentation

def resolveContentIndentation (header : YamlBlockScalarHeader) (lines : List Line)
    (parentIndentation : Nat) : Option Nat :=
  if header.indentation ≠ 0 then some (parentIndentation + header.indentation)
  else detectIndentation parentIndentation lines

/-- One turn of `normalizeLines`. -/
def normalizeLine (contentIndentation : Nat) (line : Line) : Option Line :=
  let indentation := leadingSpaces line.source
  match line.source.drop indentation with
  | [] =>
    some
      { line with content := [], indentation := indentation, blank := true, moreIndented := false }
  | c :: _ =>
    if c = tab then none
    else if indentation < contentIndentation then none
    else
      some { line with
        content := line.source.drop contentIndentation
        indentation := indentation
        blank := false
        moreIndented := contentIndentation < indentation }

def normalizeLines (contentIndentation : Nat) (lines : List Line) : Option (List Line) :=
  lines.mapM (normalizeLine contentIndentation)

def appendLiteral (lines : List Line) : Text :=
  lines.flatMap fun line => line.content ++ if line.hadBreak then [newline] else []

def hasNonBlankAfter (lines : List Line) : Bool := lines.any fun line => !line.blank

def nextNonBlankIsMoreIndented (lines : List Line) : Bool :=
  match lines.find? fun line => !line.blank with
  | none => false
  | some line => line.moreIndented

/-- What `appendFolded` puts behind a line that a break ended, in front of the lines that follow. -/
def foldBreak (line : Line) : List Line → Text
  | [] => [newline]
  | next :: rest =>
    if line.blank then [newline]
    else if next.blank then
      if !hasNonBlankAfter (next :: rest) || line.moreIndented ||
        nextNonBlankIsMoreIndented (next :: rest) then [newline]
      else []
    else if line.moreIndented || next.moreIndented then [newline]
    else [space]

def appendFolded : List Line → Text
  | [] => []
  | line :: rest =>
    line.content ++ ((if line.hadBreak then foldBreak line rest else []) ++ appendFolded rest)

def hasTrailingBreak (lines : List Line) : Bool := lines.getLast?.any Line.hadBreak

def trimTrailingBreaks (storage : Text) : Text := storage.rdropWhile (· = newline)

def applyChomping (chomping : YamlBlockScalarChomping) (hadTrailingBreak : Bool)
    (storage : Text) : Text :=
  match chomping with
  | .Strip => trimTrailingBreaks storage
  | .Clip => trimTrailingBreaks storage ++ if hadTrailingBreak then [newline] else []
  | .Keep => storage

/-- The value of the scalar, or `none` where `decode` returns false. -/
def decode (header : YamlBlockScalarHeader) (body : Text) (parentIndentation : Nat) :
    Option Text := do
  let lines := splitLines body
  let contentIndentation ← resolveContentIndentation header lines parentIndentation
  let lines ← normalizeLines contentIndentation lines
  let storage :=
    match header.style with
    | .Literal => appendLiteral lines
    | .Folded => appendFolded lines
  some (applyChomping header.chomping (hasTrailingBreak lines) storage)

end YamlBlockScalarDecoder

namespace YamlParserUtils

/-- The result of `findBlockScalarEnd`, with what it leaves in `bodyEnd`. -/
inductive BodyEnd
  | found (bodyEnd : Nat)
  | malformed (bodyEnd : Option Nat)
deriving DecidableEq

/-- The loop of `findBlockScalarEnd`, at an offset with the text from there on. Every turn takes at
least one byte, so as many turns as bytes are enough. -/
def findLoop (parentIndent : Nat) (header : YamlBlockScalarHeader) :
    Nat → Nat → Nat → Bool → Text → BodyEnd
  | 0, offset, _, _, _ => .found offset
  | turns + 1, offset, contentIndent, hasContent, text =>
    if text = [] then .found offset
    else
      let indentation := leadingSpaces text
      let rest := (cutLine text).2.2
      let next := offset + (text.length - rest.length)
      let atContent :=
        if contentIndent = 0 then
          if indentation ≤ parentIndent then .found offset
          else findLoop parentIndent header turns next indentation true rest
        else if indentation < contentIndent then
          if !hasContent && header.indentation ≠ 0 then .malformed none else .found offset
        else findLoop parentIndent header turns next contentIndent true rest
      match text.drop indentation with
      | [] => findLoop parentIndent header turns next contentIndent hasContent rest
      | c :: _ =>
        if c = tab then .malformed (some (offset + indentation))
        else if isBreak c then
          findLoop parentIndent header turns next contentIndent hasContent rest
        else atContent

def findBlockScalarEnd (source : Text) (bodyStart parentIndent : Nat)
    (header : YamlBlockScalarHeader) : BodyEnd :=
  if source.length < bodyStart then .malformed none
  else
    findLoop parentIndent header (source.length - bodyStart) bodyStart
      (if header.indentation = 0 then 0 else parentIndent + header.indentation) false
      (source.drop bodyStart)

end YamlParserUtils

open YamlBlockScalarDecoder YamlParserUtils in
/-- `parseBlockScalar` behind the header's line: the value, and the offset at which the lexer goes
on. -/
def parseBlockScalar (source headerText : Text) (bodyStart parentIndent : Nat) :
    Option (Text × Nat) := do
  let header ← parseHeader headerText
  match findBlockScalarEnd source bodyStart parentIndent header with
  | .malformed _ => none
  | .found bodyEnd =>
    let value ← decode header ((source.drop bodyStart).take (bodyEnd - bodyStart)) parentIndent
    some (value, bodyEnd)

end JobYaml

/-!
## The end of a literal block scalar

A text is written line by line behind an indentation and followed by a line of less
indentation. The scan finds what was written.
-/

namespace JobYaml

open YamlBlockScalarDecoder YamlParserUtils

/-- A line of the text; an empty one may be left unindented. -/
structure BodyLine where
  text : Text
  bare : Bool
deriving DecidableEq

/-- The bytes of a line without its break. -/
def written (indent : Nat) (line : BodyLine) : Text :=
  (if line.bare = true ∧ line.text = [] then [] else List.replicate indent space) ++ line.text

def writeBody (indent : Nat) (lines : List BodyLine) : Text :=
  lines.flatMap fun line => written indent line ++ [newline]

/-- Nothing but spaces. -/
def Blank (text : Text) : Prop := ∀ c ∈ text, c = space

instance (text : Text) : Decidable (Blank text) := List.decidableBAll _ text

/-- What follows the body: nothing, or a line of less indentation. -/
def Dedented (indent : Nat) (rest : Text) : Prop :=
  rest = [] ∨ ∃ k c more, rest = List.replicate k space ++ c :: more ∧ k < indent ∧ c ≠ space ∧
    c ≠ tab ∧ isBreak c = false

/-- The first line that is not empty does not begin with a space. -/
def FirstFlush (lines : List BodyLine) : Prop :=
  ∀ line, (lines.find? fun line => line.text ≠ []) = some line → line.text.head? ≠ some space

/-- Lines that a literal block scalar can hold. -/
structure Literal (indicator : Bool) (lines : List BodyLine) : Prop where
  unbroken : ∀ line ∈ lines, ∀ c ∈ line.text, isBreak c = false
  untabbed : ∀ line ∈ lines, (line.text.dropWhile (· = space)).head? ≠ some tab
  visible : ∃ line ∈ lines, ¬Blank line.text
  flush : indicator = false → FirstFlush lines

theorem visible_split {text : Text} (h : ¬Blank text) :
    ∃ k c more, text = List.replicate k space ++ c :: more ∧ c ≠ space := by
  induction text with
  | nil => simp [Blank] at h
  | cons b text ih =>
    by_cases hb : b = space
    · subst hb
      have htail : ¬Blank text := fun hblank => h (List.forall_mem_cons.mpr ⟨rfl, hblank⟩)
      obtain ⟨k, c, more, rfl, hc⟩ := ih htail
      exact ⟨k + 1, c, more, rfl, hc⟩
    · exact ⟨0, b, text, rfl, hb⟩

theorem leadingSpaces_split (k : Nat) {c : UInt8} (more : Text) (hc : c ≠ space) :
    leadingSpaces (List.replicate k space ++ c :: more) = k := by
  induction k with
  | zero => simp [leadingSpaces, hc]
  | succ k ih =>
    rw [leadingSpaces] at ih ⊢
    rw [List.replicate_succ, List.cons_append, List.takeWhile_cons_of_pos (by simp),
      List.length_cons, ih]

theorem drop_split (k : Nat) (c : UInt8) (more : Text) :
    (List.replicate k space ++ c :: more).drop k = c :: more := by
  rw [List.drop_append, List.length_replicate, Nat.sub_self, List.drop_zero,
    List.drop_of_length_le (by rw [List.length_replicate]), List.nil_append]

theorem Blank.eq_replicate {text : Text} (h : Blank text) :
    text = List.replicate text.length space := List.eq_replicate_of_mem h

theorem leadingSpaces_blank {text : Text} (h : Blank text) : leadingSpaces text = text.length := by
  rw [leadingSpaces, List.takeWhile_eq_self_iff.mpr]
  intro c hc
  rw [h c hc]
  decide

section Line

variable {indent : Nat} {line : BodyLine}

theorem written_blank (indent : Nat) (h : Blank line.text) : Blank (written indent line) := by
  intro c hc
  rcases List.mem_append.mp hc with hc | hc
  · split at hc
    · cases hc
    · exact List.eq_of_mem_replicate hc
  · exact h c hc

/-- A line with something to see in it is indented. -/
theorem written_visible (indent : Nat) (h : ¬Blank line.text) : ∃ k c more,
    line.text = List.replicate k space ++ c :: more ∧ c ≠ space ∧
      written indent line = List.replicate (indent + k) space ++ c :: more := by
  obtain ⟨k, c, more, htext, hc⟩ := visible_split h
  refine ⟨k, c, more, htext, hc, ?_⟩
  have hne : line.text ≠ [] := by
    rw [htext]
    simp
  rw [written, if_neg fun hbare => hne hbare.2, htext, ← List.append_assoc,
    List.replicate_append_replicate]

theorem written_unbroken (h : ∀ c ∈ line.text, isBreak c = false) :
    ∀ c ∈ written indent line, isBreak c = false := by
  intro c hc
  rcases List.mem_append.mp hc with hc | hc
  · split at hc
    · cases hc
    · rw [List.eq_of_mem_replicate hc]
      decide
  · exact h c hc

theorem cutLine_line {source : Text} (h : ∀ c ∈ source, isBreak c = false) (rest : Text) :
    cutLine (source ++ newline :: rest) = (source, true, rest) := by
  have hall : ∀ c ∈ source, (!isBreak c) = true := by
    intro c hc
    rw [h c hc]
    rfl
  rw [cutLine, List.takeWhile_append_of_pos hall, List.dropWhile_append_of_pos hall,
    List.takeWhile_cons_of_neg (by decide), List.append_nil]
  rfl

/-- The first byte that is no space is neither a tab nor a break. -/
theorem visible_first {k : Nat} {c : UInt8} {more : Text}
    (htext : line.text = List.replicate k space ++ c :: more) (hc : c ≠ space)
    (hbreak : ∀ b ∈ line.text, isBreak b = false)
    (htab : (line.text.dropWhile (· = space)).head? ≠ some tab) : c ≠ tab ∧ isBreak c = false := by
  constructor
  · rintro rfl
    apply htab
    rw [htext, List.dropWhile_append_of_pos]
    · rfl
    · intro b hb
      rw [List.eq_of_mem_replicate hb]
      decide
  · apply hbreak
    rw [htext]
    simp

end Line

section Scan

variable {indent p : Nat} {header : YamlBlockScalarHeader}
variable {lines : List BodyLine} {line : BodyLine}

/-- A blank line is passed over. -/
theorem findLoop_blank (hblank : Blank line.text) (hbreak : ∀ c ∈ line.text, isBreak c = false)
    (turns offset contentIndent : Nat) (hasContent : Bool) (rest : Text) :
    findLoop p header (turns + 1) offset contentIndent hasContent
        (written indent line ++ newline :: rest) =
      findLoop p header turns (offset + ((written indent line).length + 1)) contentIndent
        hasContent rest := by
  have hspaces := (written_blank indent hblank).eq_replicate
  have hlead : leadingSpaces (written indent line ++ newline :: rest) =
      (written indent line).length := by
    rw [hspaces, leadingSpaces_split _ _ (by decide), List.length_replicate]
  have hdrop : (written indent line ++ newline :: rest).drop (written indent line).length =
      newline :: rest := List.drop_left
  have hne : written indent line ++ newline :: rest ≠ [] := by simp
  have hnext : offset + ((written indent line ++ newline :: rest).length - rest.length) =
      offset + ((written indent line).length + 1) := by
    rw [List.length_append, List.length_cons]
    omega
  rw [findLoop, if_neg hne, cutLine_line (written_unbroken hbreak), hlead]
  dsimp only
  rw [hdrop, hnext]
  rfl

/-- A line of the content, or the first one. -/
theorem findLoop_visible {k : Nat} {c : UInt8} {more : Text}
    (htext : line.text = List.replicate k space ++ c :: more) (hc : c ≠ space)
    (hwritten : written indent line = List.replicate (indent + k) space ++ c :: more)
    (hbreak : ∀ b ∈ line.text, isBreak b = false)
    (htab : (line.text.dropWhile (· = space)).head? ≠ some tab) (hp : p < indent)
    {contentIndent : Nat} (hready : contentIndent = indent ∨ (contentIndent = 0 ∧ k = 0))
    (turns offset : Nat) (hasContent : Bool) (rest : Text) :
    findLoop p header (turns + 1) offset contentIndent hasContent
        (written indent line ++ newline :: rest) =
      findLoop p header turns (offset + ((written indent line).length + 1)) indent true rest := by
  obtain ⟨hnotTab, hnotBreak⟩ := visible_first htext hc hbreak htab
  have hlead : leadingSpaces (written indent line ++ newline :: rest) = indent + k := by
    rw [hwritten, List.append_assoc, List.cons_append, leadingSpaces_split _ _ hc]
  have hdrop : (written indent line ++ newline :: rest).drop (indent + k) =
      c :: (more ++ newline :: rest) := by
    rw [hwritten, List.append_assoc, List.cons_append, drop_split]
  have hne : written indent line ++ newline :: rest ≠ [] := by simp
  have hnext : offset + ((written indent line ++ newline :: rest).length - rest.length) =
      offset + ((written indent line).length + 1) := by
    rw [List.length_append, List.length_cons]
    omega
  rw [findLoop, if_neg hne, cutLine_line (written_unbroken hbreak), hlead]
  dsimp only
  rw [hdrop, hnext]
  dsimp only
  rw [if_neg hnotTab, hnotBreak, if_neg Bool.false_ne_true]
  rcases hready with rfl | ⟨rfl, rfl⟩
  · rw [if_neg (by omega), if_neg (by omega)]
  · rw [if_pos rfl, if_neg (by omega)]
    rfl

theorem writeBody_cons (indent : Nat) (line : BodyLine) (lines : List BodyLine) (rest : Text) :
    writeBody indent (line :: lines) ++ rest =
      written indent line ++ newline :: (writeBody indent lines ++ rest) := by
  simp [writeBody]

theorem length_writeBody_cons (indent : Nat) (line : BodyLine) (lines : List BodyLine) :
    (writeBody indent (line :: lines)).length =
      ((written indent line).length + 1) + (writeBody indent lines).length := by
  simp [writeBody]
  omega

/-- Lines without breaks and without a tab behind their leading spaces. -/
def Plain (lines : List BodyLine) : Prop :=
  ∀ line ∈ lines, (∀ c ∈ line.text, isBreak c = false) ∧
    (line.text.dropWhile (· = space)).head? ≠ some tab

/-- The scan once the indentation is known and a line was seen. -/
theorem findLoop_settled (hplain : Plain lines) (hp : p < indent) (turns offset : Nat)
    (rest : Text) :
    findLoop p header (turns + lines.length) offset indent true (writeBody indent lines ++ rest) =
      findLoop p header turns (offset + (writeBody indent lines).length) indent true rest := by
  induction lines generalizing offset with
  | nil => rfl
  | cons line lines ih =>
    obtain ⟨⟨hbreak, htab⟩, htail⟩ := List.forall_mem_cons.mp hplain
    rw [writeBody_cons, length_writeBody_cons, List.length_cons, ← Nat.add_assoc turns,
      ← Nat.add_assoc offset]
    by_cases hblank : Blank line.text
    · rw [findLoop_blank hblank hbreak, ih htail]
    · obtain ⟨k, c, more, htext, hc, hwritten⟩ := written_visible indent hblank
      rw [findLoop_visible htext hc hwritten hbreak htab hp (Or.inl rfl), ih htail]

theorem FirstFlush.tail (h : FirstFlush (line :: lines)) (hblank : Blank line.text) :
    FirstFlush lines := by
  have hempty : line.text = [] := by
    by_contra hne
    have hfirst := h line (by simp [hne])
    obtain ⟨c, more, htext⟩ := List.exists_cons_of_ne_nil hne
    rw [htext] at hblank
    apply hfirst
    rw [htext, List.head?_cons, hblank c List.mem_cons_self]
  intro first hfind
  apply h first
  rw [List.find?_cons_of_neg (by simp [hempty]), hfind]

theorem FirstFlush.visible (h : FirstFlush (line :: lines)) {k : Nat} {c : UInt8} {more : Text}
    (htext : line.text = List.replicate k space ++ c :: more) : k = 0 := by
  have hfirst := h line (by simp [htext])
  cases k with
  | zero => rfl
  | succ k =>
    rw [htext] at hfirst
    exact absurd rfl hfirst

theorem later_visible (h : ∃ later ∈ line :: lines, ¬Blank later.text) (hblank : Blank line.text) :
    ∃ later ∈ lines, ¬Blank later.text := by
  obtain ⟨later, hmem, hlater⟩ := h
  rcases List.mem_cons.mp hmem with rfl | hmem
  · exact absurd hblank hlater
  · exact ⟨later, hmem, hlater⟩

/-- The scan from before the first line that shows something. -/
theorem findLoop_body (hplain : Plain lines) (hp : p < indent)
    (hvisible : ∃ line ∈ lines, ¬Blank line.text) {contentIndent : Nat}
    (hready : contentIndent = indent ∨ (contentIndent = 0 ∧ FirstFlush lines)) (turns offset : Nat)
    (hasContent : Bool) (rest : Text) :
    findLoop p header (turns + lines.length) offset contentIndent hasContent
        (writeBody indent lines ++ rest) =
      findLoop p header turns (offset + (writeBody indent lines).length) indent true rest := by
  induction lines generalizing offset with
  | nil =>
    obtain ⟨line, hline, -⟩ := hvisible
    cases hline
  | cons line lines ih =>
    obtain ⟨⟨hbreak, htab⟩, htail⟩ := List.forall_mem_cons.mp hplain
    rw [writeBody_cons, length_writeBody_cons, List.length_cons, ← Nat.add_assoc turns,
      ← Nat.add_assoc offset]
    by_cases hblank : Blank line.text
    · rw [findLoop_blank hblank hbreak]
      refine ih htail (later_visible hvisible hblank) ?_ _
      exact hready.imp_right fun ⟨hzero, hflush⟩ => ⟨hzero, hflush.tail hblank⟩
    · obtain ⟨k, c, more, htext, hc, hwritten⟩ := written_visible indent hblank
      rw [findLoop_visible htext hc hwritten hbreak htab hp
          (hready.imp_right fun ⟨hzero, hflush⟩ => ⟨hzero, hflush.visible htext⟩),
        findLoop_settled htail hp]

/-- The scan stops at the line of less indentation. -/
theorem findLoop_dedented {rest : Text} (h : Dedented indent rest) (hindent : indent ≠ 0)
    {turns : Nat} (hturns : rest.length ≤ turns) (offset : Nat) :
    findLoop p header turns offset indent true rest = .found offset := by
  rcases h with rfl | ⟨k, c, more, rfl, hk, hspace, htab, hbreak⟩
  · cases turns with
    | zero => rfl
    | succ turns => rfl
  · obtain ⟨turns, rfl⟩ : ∃ less, turns = less + 1 := by
      apply Nat.exists_eq_succ_of_ne_zero
      rintro rfl
      simp at hturns
    rw [findLoop, if_neg (by simp), leadingSpaces_split _ _ hspace]
    dsimp only
    rw [drop_split]
    dsimp only
    rw [if_neg htab, hbreak, if_neg Bool.false_ne_true, if_neg hindent, if_pos hk, if_neg (by simp)]

theorem length_le_writeBody (indent : Nat) (lines : List BodyLine) :
    lines.length ≤ (writeBody indent lines).length := by
  induction lines with
  | nil => exact Nat.le_refl 0
  | cons line lines ih =>
    rw [length_writeBody_cons, List.length_cons]
    omega

/-- The scan finds exactly the body. -/
theorem findBlockScalarEnd_written (hplain : Plain lines) {n : Nat} (hn : n ≠ 0)
    (hvisible : ∃ line ∈ lines, ¬Blank line.text)
    (hheader : header.indentation = n ∨ (header.indentation = 0 ∧ FirstFlush lines)) {rest : Text}
    (hrest : Dedented (p + n) rest) (before : Text) :
    findBlockScalarEnd (before ++ (writeBody (p + n) lines ++ rest)) before.length p header =
      .found (before.length + (writeBody (p + n) lines).length) := by
  have hlength := length_le_writeBody (p + n) lines
  obtain ⟨spare⟩ := Nat.exists_eq_add_of_le hlength
  have hturns : (before ++ (writeBody (p + n) lines ++ rest)).length - before.length =
      (rest.length + spare) + lines.length := by
    rw [List.length_append, List.length_append]
    omega
  have hready : (if header.indentation = 0 then 0 else p + header.indentation) = p + n ∨
      ((if header.indentation = 0 then 0 else p + header.indentation) = 0 ∧ FirstFlush lines) := by
    rcases hheader with h | ⟨h, hflush⟩
    · left
      rw [if_neg (h ▸ hn), h]
    · right
      exact ⟨if_pos h, hflush⟩
  rw [findBlockScalarEnd, if_neg (by simp), hturns, List.drop_left,
    findLoop_body hplain (by omega) hvisible hready,
    findLoop_dedented hrest (by omega) (Nat.le_add_right _ _)]

end Scan

end JobYaml
