import OddBuilder.Io.Ini

/-!
# The lines of an INI text

What `toIni` writes, line by line, and what reading one line can change.
-/

namespace JobIo

open List

namespace JobIni

open Grammar

theorem dropWhile_isBlank {line : Text} (h : ∀ c, line.head? = some c → isBlank c = false) :
    line.dropWhile isBlank = line := by
  cases line with
  | nil => rfl
  | cons c line => exact dropWhile_cons_of_neg (by simp [h c rfl])

/-- Nothing to trim. -/
theorem trimView_eq_self {line : Text} (hfirst : ∀ c, line.head? = some c → isBlank c = false)
    (hlast : ∀ c, line.getLast? = some c → isBlank c = false) : trimView line = line := by
  have hreverse : line.reverse.dropWhile isBlank = line.reverse := by
    apply dropWhile_isBlank
    intro c hc
    exact hlast c (by rwa [List.head?_reverse] at hc)
  rw [trimView, dropWhile_isBlank hfirst, hreverse, reverse_reverse]

theorem trimView_of_forall {line : Text} (h : ∀ c ∈ line, isBlank c = false) :
    trimView line = line :=
  trimView_eq_self (fun c hc => h c (mem_of_head? hc)) fun c hc => h c (mem_of_getLast? hc)

theorem lineViews_append {first : Text} (h : Terminated.Closed NewLine first)
    (second : Text) : lineViews (first ++ second) = lineViews first ++ lineViews second := by
  rw [lineViews, h.pieces_append, map_append]
  rfl

theorem lineViews_flatMap {β : Type*} (items : List β) {write : β → Text}
    (h : ∀ item, Terminated.Closed NewLine (write item)) :
    lineViews (items.flatMap write) = items.flatMap fun item => lineViews (write item) := by
  induction items with
  | nil => rfl
  | cons item items ih => rw [flatMap_cons, lineViews_append (h item), ih, flatMap_cons]

/-- One whole line. -/
theorem lineViews_line {line : Text} (hmark : NewLine ∉ line)
    (hreturn : line.getLast? ≠ some CarriageReturn) (rest : Text) :
    lineViews (line ++ NewLine :: rest) = line :: lineViews rest := by
  rw [lineViews, Terminated.pieces_cons hmark, map_cons, dropCarriageReturn, if_neg hreturn]
  rfl

theorem closed_appendIniEntry (key value : Text) :
    Terminated.Closed NewLine (appendIniEntry key value) :=
  Terminated.closed_append_mark _

theorem Member.closed_write (m : Member) : Terminated.Closed NewLine m.write := by
  obtain ⟨name, type, init, value⟩ := m
  cases type with
  | value codec =>
    simp only [Member.write, writeMember]
    cases codec.write value with
    | none => exact .nil
    | some text => exact closed_appendIniEntry name text
  | localized =>
    refine (closed_appendIniEntry name _).append (Terminated.Closed.flatMap fun entry _ => ?_)
    exact closed_appendIniEntry _ _

/-- What C++ lets a member be called. -/
structure Identifiers where
  IsName : Text → Prop
  plain : ∀ name, IsName name → name ≠ [] ∧ ∀ c ∈ name,
    c ∉ [CommentHash, CommentSemicolon, GroupOpen, GroupClose,
      Assignment, NewLine, CarriageReturn, Space, Tab]
  another : ∀ name, ∃ other, IsName other ∧ other ≠ name

/-- Names of small letters. -/
def Identifiers.lowercase : Identifiers where
  IsName := fun name => name ≠ [] ∧ ∀ c ∈ name, 97 ≤ c ∧ c ≤ 122
  plain := by
    rintro name ⟨hne, hname⟩
    refine ⟨hne, fun c hc hmem => ?_⟩
    have hlt : [CommentHash, CommentSemicolon, GroupOpen,
        GroupClose, Assignment, NewLine, CarriageReturn,
        Space, Tab].all (· < 97) = true := by decide
    exact UInt8.not_lt.2 (hname c hc).1 (of_decide_eq_true (List.all_eq_true.1 hlt c hmem))
  another := by
    intro name
    by_cases h : name = [97]
    · exact ⟨[98], ⟨List.cons_ne_nil _ _, List.forall_mem_singleton.2 (by decide)⟩, by rw [h]; decide⟩
    · exact ⟨[97], ⟨List.cons_ne_nil _ _, List.forall_mem_singleton.2 (by decide)⟩, Ne.symm h⟩

/-- Members of a class: no two of one name. -/
structure Mapped (I : Identifiers) (members : List Member) : Prop where
  isName : ∀ m ∈ members, I.IsName m.name
  distinct : (members.map Member.name).Nodup

/-- An `IniGroup` that reads back. -/
structure IniGroup where
  name : Text
  line : NewLine ∉ name
  readable : groupView (GroupOpen :: name ++ [GroupClose]) = some name

def IniGroup.text (own : Option IniGroup) : Option Text := own.map IniGroup.name

/-- The group that an object's entries stand in. -/
def IniGroup.start (own : Option IniGroup) : Text := (IniGroup.text own).getD []

theorem IniGroup.any_start (own : Option IniGroup) :
    (IniGroup.text own).any (· ≠ IniGroup.start own) = false := by
  cases own with
  | none => rfl
  | some g => simp [IniGroup.text, IniGroup.start]

/-- Text that no layer of the reader takes for anything else. -/
def Plain (text : Text) : Prop :=
  ∀ c ∈ text, c ∉ [NewLine, CarriageReturn, Space, Tab]

instance (text : Text) : Decidable (Plain text) :=
  List.decidableBAll _ text

/-- What an entry's line is taken apart into. -/
structure IsEntry (line key base locale value : Text) : Prop where
  classified : classify line = .Entry
  entry : entryView line = some (key, value)
  split : localizedKeyView key = some (base, locale)

theorem Plain.isBlank_eq {text : Text} (h : Plain text) : ∀ c ∈ text, isBlank c = false := by
  intro c hc
  have hc := h c hc
  simp only [mem_cons, not_or] at hc
  simp [isBlank, hc]

theorem Plain.newLine {text : Text} (h : Plain text) : NewLine ∉ text :=
  fun hmem => h _ hmem (by decide)

theorem Plain.getLast_ne {text : Text} (h : Plain text) :
    text.getLast? ≠ some CarriageReturn :=
  fun hlast => h _ (mem_of_getLast? hlast) (by decide)

theorem Plain.append {first second : Text} (h : Plain first) (h' : Plain second) :
    Plain (first ++ second) := by
  intro c hc
  rcases mem_append.1 hc with hc | hc
  · exact h c hc
  · exact h' c hc

theorem before_append {c : UInt8} {text : Text} (h : c ∉ text) (rest : Text) :
    before c (text ++ c :: rest) = text := by
  have hother : ∀ d ∈ text, d ≠ c := fun d hd heq => h (heq ▸ hd)
  rw [before, takeWhile_append_of_pos (by simpa using hother)]
  simp

theorem behind_append {c : UInt8} {text : Text} (h : c ∉ text) (rest : Text) :
    behind c (text ++ c :: rest) = rest := by
  have hother : ∀ d ∈ text, d ≠ c := fun d hd heq => h (heq ▸ hd)
  rw [behind, dropWhile_append_of_pos (by simpa using hother)]
  simp

namespace Identifiers

variable {I : Identifiers} {name : Text}

theorem plain_name (hname : I.IsName name) : Plain name := by
  intro c hc hmem
  apply (I.plain name hname).2 c hc
  revert hmem
  simp only [mem_cons, not_mem_nil]
  rintro (h | h | h | h) <;> simp [h]

theorem assignment_notMem (hname : I.IsName name) : Assignment ∉ name :=
  fun hmem => (I.plain name hname).2 _ hmem (by decide)

theorem localeOpen_notMem (hname : I.IsName name) : LocaleOpen ∉ name :=
  fun hmem => (I.plain name hname).2 _ hmem (by decide)

theorem classify_name (hname : I.IsName name) (rest : Text) :
    classify (name ++ rest) = .Entry := by
  obtain ⟨hne, hplain⟩ := I.plain name hname
  obtain ⟨c, name, rfl⟩ := exists_cons_of_ne_nil hne
  have hc := hplain c mem_cons_self
  simp only [mem_cons, not_or] at hc
  simp [classify, hc]

theorem localizedKeyView_name (hname : I.IsName name) :
    localizedKeyView name = some (name, []) :=
  if_pos (localeOpen_notMem hname)

theorem plain_entry (hname : I.IsName name) {text : Text} (htext : Plain text) :
    Plain (name ++ Assignment :: text) := by
  refine (plain_name hname).append ?_
  rintro c hc
  rcases mem_cons.1 hc with rfl | hc
  · decide
  · exact htext c hc

/-- The line of a plain text. -/
theorem lineViews_entry (hname : I.IsName name) {text : Text} (htext : Plain text) :
    lineViews (appendIniEntry name text) = [name ++ Assignment :: text] := by
  have hplain := plain_entry hname htext
  exact lineViews_line hplain.newLine hplain.getLast_ne []

theorem isEntry (hname : I.IsName name) {text : Text} (htext : Plain text) :
    IsEntry (trimView (name ++ Assignment :: text)) name name [] text := by
  rw [trimView_of_forall (plain_entry hname htext).isBlank_eq]
  refine ⟨classify_name hname _, ?_, localizedKeyView_name hname⟩
  rw [entryView, if_neg (by simp), before_append (assignment_notMem hname),
    behind_append (assignment_notMem hname), trimView_of_forall (plain_name hname).isBlank_eq,
    trimView_of_forall htext.isBlank_eq]
  exact if_neg (I.plain name hname).1

end Identifiers

theorem readLine_error {own : Option Text} {r : Reader} (h : r.error.isSome) (line : Text) :
    readLine own r line = r := by
  obtain ⟨e, he⟩ := Option.isSome_iff_exists.1 h
  simp [readLine, he]

theorem readLines_error {own : Option Text} {r : Reader} (h : r.error.isSome) (lines : List Text) :
    readLines own r lines = r := by
  induction lines with
  | nil => rfl
  | cons line lines ih => rw [readLines, foldl_cons, readLine_error h]; exact ih

theorem readLines_append (own : Option Text) (r : Reader) (first second : List Text) :
    readLines own r (first ++ second) = readLines own (readLines own r first) second :=
  foldl_append

theorem readLine_entry {own : Option Text} {r : Reader} {line key base locale value : Text}
    (hr : r.error = none) (h : IsEntry (trimView line) key base locale value) :
    readLine own r line = deserializeIniEntry own r key value := by
  simp [readLine, hr, h.classified, h.entry]

theorem readLine_skip {own : Option Text} {r : Reader} {line : Text}
    (h : classify (trimView line) = .Empty ∨ classify (trimView line) = .Comment) :
    readLine own r line = r := by
  cases hr : r.error with
  | some e => exact readLine_error (by simp [hr]) line
  | none => rcases h with h | h <;> simp [readLine, hr, h]

/-- An entry outside the object's group. -/
theorem deserializeIniEntry_outside {own : Option Text} {r : Reader} (h : own.any (· ≠ r.group) = true)
    (key value : Text) : deserializeIniEntry own r key value = r :=
  if_pos h

theorem IniGroup.readLine_name (g : IniGroup) (own : Option Text) {r : Reader}
    (hr : r.error = none) :
    readLine own r (GroupOpen :: g.name ++ [GroupClose]) =
      { r with group := g.name } := by
  have htrim : trimView (GroupOpen :: g.name ++ [GroupClose]) =
      GroupOpen :: g.name ++ [GroupClose] := by
    apply trimView_eq_self
    · rintro c hc
      cases hc
      rfl
    · rintro c hc
      rw [List.getLast?_concat] at hc
      cases hc
      rfl
  have hclass : classify (GroupOpen :: g.name ++ [GroupClose]) = .Group := rfl
  simp only [readLine, hr, htrim, hclass, g.readable]

theorem IniGroup.lineViews_name (g : IniGroup) (rest : Text) :
    lineViews ((GroupOpen :: g.name ++ [GroupClose]) ++ NewLine :: rest) =
      (GroupOpen :: g.name ++ [GroupClose]) :: lineViews rest := by
  apply lineViews_line
  · simp only [cons_append, mem_cons, mem_append]
    rintro (h | h | h)
    · exact absurd h (by decide)
    · exact g.line h
    · exact absurd h (by decide)
  · rw [List.getLast?_concat]
    decide

/-- The members' lines are read in the object's group. -/
theorem fromIni_toIni (own : Option IniGroup) (members fields : List Member) :
    fromIni (IniGroup.text own) members (toIni (IniGroup.text own) fields) =
      readLines (IniGroup.text own) ⟨IniGroup.start own, members, none⟩
        (lineViews (fields.flatMap Member.write)) := by
  cases own with
  | none => rfl
  | some g =>
    have hline : groupLine g.name ++ fields.flatMap Member.write =
        (GroupOpen :: g.name ++ [GroupClose]) ++
          NewLine :: fields.flatMap Member.write := by
      simp [groupLine]
    simp only [fromIni, toIni, IniGroup.text, Option.map_some, Option.getD_some]
    rw [hline, g.lineViews_name, readLines, foldl_cons, g.readLine_name (some g.name) rfl]
    rfl

end JobIni

end JobIo
