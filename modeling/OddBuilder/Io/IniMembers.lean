import Mathlib.Data.List.Nodup
import OddBuilder.Io.IniLines

/-!
# Members and lines

A line takes its value to the first member that it names. A harmless line of a
member can change nothing else, so neither can text whose lines are harmless.
-/

namespace JobIo

open List

namespace JobIni

variable {m : Member} {key base locale value : Text} {r : Reader} {pre post members : List Member}

/-- A member of a new object. -/
def Member.blank (m : Member) : Member := { m with value := m.init }

theorem fresh_append (first second : List Member) :
    fresh (first ++ second) = fresh first ++ fresh second :=
  map_append

theorem fresh_cons (m : Member) (members : List Member) :
    fresh (m :: members) = m.blank :: fresh members :=
  rfl

theorem fresh_fresh (members : List Member) : fresh (fresh members) = fresh members := by
  rw [fresh, fresh, map_map]
  rfl

/-- Members that start alike are the same but for their values. -/
theorem eq_of_blank_eq {m' : Member} (h : m'.blank = m.blank) : ∃ v, m' = { m with value := v } := by
  obtain ⟨name', type', init', value'⟩ := m'
  simp only [Member.blank, Member.mk.injEq] at h
  obtain ⟨rfl, rfl, hinit, -⟩ := h
  cases hinit
  exact ⟨value', rfl⟩

theorem names_fresh (members : List Member) :
    (fresh members).map Member.name = members.map Member.name := by
  rw [fresh, map_map]
  rfl

theorem Mapped.of_fresh_eq {I : Identifiers} {members' : List Member} (h : Mapped I members)
    (hfresh : fresh members' = fresh members) : Mapped I members' := by
  have hnames : members'.map Member.name = members.map Member.name := by
    rw [← names_fresh members', hfresh, names_fresh]
  constructor
  · intro m hm
    have hmem : m.name ∈ members.map Member.name := hnames ▸ mem_map_of_mem hm
    obtain ⟨m', hm', heq⟩ := mem_map.1 hmem
    exact heq ▸ h.isName m' hm'
  · exact hnames ▸ h.distinct

theorem assign_value {m' : Member} {success : Bool}
    (h : m.assign key base locale value = some (success, m')) : ∃ v, m' = { m with value := v } := by
  rw [Member.assign, Option.map_eq_some_iff] at h
  obtain ⟨⟨success', v⟩, -, heq⟩ := h
  exact ⟨v, (Prod.mk.inj heq).2.symm⟩

theorem base_eq_key (h : localizedKeyView key = some (base, [])) : base = key := by
  rw [localizedKeyView] at h
  split at h
  · exact ((Prod.mk.inj (Option.some.inj h)).1).symm
  · simp only at h
    split at h
    · cases h
    · split at h
      · cases h
      · next hrest => exact absurd (Prod.mk.inj (Option.some.inj h)).2 hrest

/-- A member that the key does not name. -/
theorem assign_other (value : Text) (hkey : localizedKeyView key = some (base, locale))
    (hbase : base ≠ m.name) : m.assign key base locale value = none := by
  obtain ⟨name, type⟩ := m
  rw [Member.assign, Option.map_eq_none_iff]
  cases type with
  | value codec =>
    apply if_neg
    rintro ⟨rfl, rfl⟩
    exact hbase (base_eq_key hkey)
  | localized => exact if_neg hbase

section Key

variable {key base locale value : Text}

theorem assignFirst_found {m m' : Member} {success : Bool} (rest : List Member)
    (h : m.assign key base locale value = some (success, m')) :
    assignFirst key base locale value (m :: rest) = some (success, m' :: rest) := by
  rw [assignFirst, h]

theorem assignFirst_passed {m : Member} (rest : List Member)
    (h : m.assign key base locale value = none) :
    assignFirst key base locale value (m :: rest) =
      (assignFirst key base locale value rest).map fun (success, rest') => (success, m :: rest') := by
  rw [assignFirst, h]

theorem assignFirst_append (first second : List Member) :
    assignFirst key base locale value (first ++ second) =
      match assignFirst key base locale value first with
      | some (success, first') => some (success, first' ++ second)
      | none => (assignFirst key base locale value second).map fun (success, second') =>
          (success, first ++ second') := by
  induction first with
  | nil =>
    exact Option.map_id'.symm
  | cons m first ih =>
    rw [cons_append]
    cases hm : m.assign key base locale value with
    | some found =>
      rw [assignFirst_found _ hm, assignFirst_found _ hm]
      rfl
    | none =>
      rw [assignFirst_passed _ hm, assignFirst_passed _ hm, ih]
      cases assignFirst key base locale value first with
      | some found => rfl
      | none => simp [Function.comp_def]

theorem assignFirst_other {members : List Member}
    (hkey : localizedKeyView key = some (base, locale)) (h : ∀ m ∈ members, base ≠ m.name) :
    assignFirst key base locale value members = none := by
  induction members with
  | nil => rfl
  | cons m members ih =>
    have hm := assign_other value hkey (h m mem_cons_self)
    rw [assignFirst_passed _ hm, ih fun other hother => h other (mem_cons_of_mem _ hother)]
    rfl

/-- The one member that the key may name. -/
theorem assignFirst_middle {pre post : List Member} {m : Member}
    (hkey : localizedKeyView key = some (base, locale))
    (hpre : ∀ other ∈ pre, base ≠ other.name) (hpost : ∀ other ∈ post, base ≠ other.name) :
    assignFirst key base locale value (pre ++ m :: post) =
      (m.assign key base locale value).map fun (success, m') => (success, pre ++ m' :: post) := by
  rw [assignFirst_append, assignFirst_other hkey hpre]
  cases hm : m.assign key base locale value with
  | some found =>
    rw [assignFirst_found _ hm]
    rfl
  | none =>
    rw [assignFirst_passed _ hm, assignFirst_other hkey hpost]
    rfl

/-- Only a value changes. -/
theorem assignFirst_fresh {members members' : List Member} {success : Bool}
    (h : assignFirst key base locale value members = some (success, members')) :
    fresh members' = fresh members := by
  induction members generalizing members' with
  | nil => cases h
  | cons m members ih =>
    cases hm : m.assign key base locale value with
    | some found =>
      obtain ⟨success'⟩ := found
      rw [assignFirst_found _ hm] at h
      obtain ⟨v, rfl⟩ := assign_value hm
      cases h
      rfl
    | none =>
      rw [assignFirst_passed _ hm] at h
      obtain ⟨⟨success'⟩, hrest, heq⟩ := Option.map_eq_some_iff.1 h
      cases heq
      rw [fresh_cons, fresh_cons, ih hrest]

end Key

theorem deserializeIniEntry_fresh (own : Option Text) (r : Reader) (key value : Text) :
    fresh (deserializeIniEntry own r key value).members = fresh r.members := by
  rw [deserializeIniEntry]
  split
  · rfl
  · split
    · rfl
    · split
      · rfl
      · next h => exact assignFirst_fresh h
      · next h => exact assignFirst_fresh h

theorem readLine_fresh (own : Option Text) (r : Reader) (line : Text) :
    fresh (readLine own r line).members = fresh r.members := by
  rw [readLine]
  split
  · rfl
  · simp only
    split
    · rfl
    · rfl
    · split <;> rfl
    · split
      · rfl
      · exact deserializeIniEntry_fresh own r _ _

theorem readLines_fresh (own : Option Text) (r : Reader) (lines : List Text) :
    fresh (readLines own r lines).members = fresh r.members := by
  induction lines generalizing r with
  | nil => rfl
  | cons line lines ih => exact (ih (readLine own r line)).trans (readLine_fresh own r line)

/-- An entry in the object's group that no member takes. -/
theorem deserializeIniEntry_none {own : Option Text} (hopen : own.any (· ≠ r.group) = false)
    (hkey : localizedKeyView key = some (base, locale))
    (hassign : assignFirst key base locale value r.members = none) :
    deserializeIniEntry own r key value = r := by
  rw [deserializeIniEntry]
  simp [hkey, hassign]

theorem deserializeIniEntry_some {own : Option Text} (hopen : own.any (· ≠ r.group) = false)
    (hkey : localizedKeyView key = some (base, locale))
    (hassign : assignFirst key base locale value r.members = some (true, members)) :
    deserializeIniEntry own r key value = { r with members := members } := by
  rw [deserializeIniEntry, if_neg (ne_true_of_eq_false hopen)]
  simp [hkey, hassign]

/-- A trimmed line that names no member but the one that it was written for. -/
inductive Harmless (I : Identifiers) (name line : Text) : Prop where
  | empty (hclass : classify line = .Empty)
  | comment (hclass : classify line = .Comment)
  | entry {key base locale value : Text} (hentry : IsEntry line key base locale value)
      (hbase : I.IsName base → base = name)

/-- The member can take what a trimmed line gives it. -/
def Member.Accepts (m : Member) (line : Text) : Prop :=
  ∀ key base locale value, IsEntry line key base locale value →
    ∀ old result, assignMember m.name key base locale value m.type old = some result →
      result.1 = true

/-- What is written for the member stays with it. -/
structure Contained (I : Identifiers) (m : Member) : Prop where
  harmless : ∀ line ∈ lineViews m.write, Harmless I m.name (trimView line)
  accepts : ∀ line ∈ lineViews m.write, m.Accepts (trimView line)

variable {I : Identifiers} (own : Option Text)

/-- The neighbours of a member in an object. -/
theorem Mapped.middle (h : Mapped I (pre ++ m :: post)) :
    (∀ other ∈ pre, m.name ≠ other.name) ∧ ∀ other ∈ post, m.name ≠ other.name := by
  have hdistinct := h.distinct
  rw [map_append, map_cons, nodup_append, nodup_cons] at hdistinct
  obtain ⟨-, ⟨hpost⟩, hpre⟩ := hdistinct
  constructor
  · intro other hother heq
    exact hpre _ (mem_map_of_mem hother) _ mem_cons_self heq.symm
  · intro other hother heq
    exact hpost (heq ▸ mem_map_of_mem hother)

/-- A key that is the member's own or nobody's. -/
theorem assignFirst_harmless {line : Text} (hmapped : Mapped I (pre ++ m :: post))
    (hentry : IsEntry line key base locale value) (hbase : I.IsName base → base = m.name)
    (haccepts : m.Accepts line) :
    assignFirst key base locale value (pre ++ m :: post) = none ∨
      ∃ v, assignFirst key base locale value (pre ++ m :: post) =
        some (true, pre ++ { m with value := v } :: post) := by
  by_cases hown : base = m.name
  · obtain ⟨hpre, hpost⟩ := hmapped.middle
    rw [assignFirst_middle hentry.split (hown ▸ hpre) (hown ▸ hpost), Member.assign]
    cases hassign : assignMember m.name key base locale value m.type m.value with
    | none => exact .inl rfl
    | some result =>
      have hsuccess := haccepts key base locale value hentry _ result hassign
      right
      refine ⟨result.2, ?_⟩
      rw [← hsuccess]
      rfl
  · left
    apply assignFirst_other hentry.split
    intro other hother heq
    exact hown (hbase (heq ▸ hmapped.isName other hother))

theorem readLine_harmless {line : Text} (hr : r.error = none)
    (hmembers : r.members = pre ++ m :: post) (hmapped : Mapped I (pre ++ m :: post))
    (hline : Harmless I m.name (trimView line)) (haccepts : m.Accepts (trimView line)) :
    ∃ v, readLine own r line = { r with members := pre ++ { m with value := v } :: post } := by
  have hsame : r = { r with members := pre ++ { m with value := m.value } :: post } := by
    rw [← hmembers]
  cases hline with
  | empty hclass => exact ⟨m.value, (readLine_skip (.inl hclass)).trans hsame⟩
  | comment hclass => exact ⟨m.value, (readLine_skip (.inr hclass)).trans hsame⟩
  | @entry key base locale value hentry hbase =>
    rw [readLine_entry hr hentry]
    cases hgroup : own.any (· ≠ r.group) with
    | true => exact ⟨m.value, (deserializeIniEntry_outside hgroup key value).trans hsame⟩
    | false =>
      rcases assignFirst_harmless hmapped hentry hbase haccepts with hnone | ⟨v, hsome⟩
      · rw [← hmembers] at hnone
        exact ⟨m.value, (deserializeIniEntry_none hgroup hentry.split hnone).trans hsame⟩
      · rw [← hmembers] at hsome
        exact ⟨v, deserializeIniEntry_some hgroup hentry.split hsome⟩

theorem Mapped.with_value (h : Mapped I (pre ++ m :: post)) (v : m.type.Value) :
    Mapped I (pre ++ { m with value := v } :: post) := by
  apply h.of_fresh_eq
  rw [fresh_append, fresh_append]
  rfl

/-- Harmless lines of a member, one after the other. -/
theorem readLines_harmless {lines : List Text} (hr : r.error = none)
    (hmembers : r.members = pre ++ m :: post) (hmapped : Mapped I (pre ++ m :: post))
    (hlines : ∀ line ∈ lines, Harmless I m.name (trimView line))
    (haccepts : ∀ line ∈ lines, m.Accepts (trimView line)) :
    ∃ v, readLines own r lines = { r with members := pre ++ { m with value := v } :: post } := by
  induction lines generalizing r m with
  | nil => exact ⟨m.value, by rw [← hmembers]; rfl⟩
  | cons line lines ih =>
    obtain ⟨v, hv⟩ := readLine_harmless own hr hmembers hmapped
      (hlines line mem_cons_self) (haccepts line mem_cons_self)
    rw [readLines, foldl_cons, hv]
    exact ih (m := { m with value := v }) hr rfl (hmapped.with_value v) (fun other hother => hlines other
      (mem_cons_of_mem _ hother)) fun other hother => haccepts other
      (mem_cons_of_mem _ hother)

theorem lineViews_members (members : List Member) :
    lineViews (members.flatMap Member.write) = members.flatMap fun m => lineViews m.write :=
  lineViews_flatMap members Member.closed_write

/-- Members whose text is contained are read where they stand. -/
theorem readLines_contained (pre post : List Member) {middle : List Member} (hr : r.error = none)
    (hmembers : r.members = pre ++ (middle ++ post)) (hmapped : Mapped I (pre ++ (middle ++ post)))
    (hfresh : fresh middle = fresh members) (hcontained : ∀ m ∈ members, Contained I m) :
    ∃ middle', fresh middle' = fresh middle ∧
      readLines own r (lineViews (members.flatMap Member.write)) =
        { r with members := pre ++ (middle' ++ post) } := by
  rw [lineViews_members]
  induction members generalizing r pre middle with
  | nil =>
    exact ⟨middle, rfl, by rw [← hmembers]; rfl⟩
  | cons m members ih =>
    obtain ⟨m', middle, rfl, hm, hrest⟩ := map_eq_cons_iff.1 hfresh
    obtain ⟨v, rfl⟩ := eq_of_blank_eq hm
    have hown := hcontained m mem_cons_self
    obtain ⟨v', hv'⟩ := readLines_harmless own hr hmembers hmapped hown.harmless hown.accepts
    obtain ⟨middle', hmiddle', hread⟩ := ih (pre ++ [{ m with value := v' }])
      (r := { r with members := (pre ++ [{ m with value := v' }]) ++ (middle ++ post) }) hr rfl
      (by simpa using hmapped.with_value v') hrest
      fun other hother => hcontained other (mem_cons_of_mem _ hother)
    refine ⟨{ m with value := v' } :: middle', ?_, ?_⟩
    · rw [fresh_cons, hmiddle']
      rfl
    · rw [flatMap_cons, readLines_append, hv']
      simpa using hread

/-- A value written plainly and read over any other. -/
theorem contained_value {name : Text} {codec : IniCodec} {init value : codec.Value}
    (hname : I.IsName name) (hplain : ∀ text, codec.write value = some text → Plain text)
    (hread : ∀ text, codec.write value = some text → ∀ old, (codec.read text old).1 = true) :
    Contained I ⟨name, .value codec, init, value⟩ := by
  cases htext : codec.write value with
  | none =>
    have hlines : lineViews (Member.write ⟨name, .value codec, init, value⟩) = [] := by
      simp only [Member.write, writeMember, htext]
      rfl
    constructor <;> simp [hlines]
  | some text =>
    have hentry := Identifiers.isEntry hname (hplain text htext)
    have hlines : lineViews (Member.write ⟨name, .value codec, init, value⟩) =
        [name ++ Grammar.Assignment :: text] := by
      simp only [Member.write, writeMember, htext]
      exact Identifiers.lineViews_entry hname (hplain text htext)
    constructor
    · intro line hline
      rw [hlines, mem_singleton] at hline
      exact hline ▸ .entry hentry fun _ => rfl
    · intro line hline key base locale text' hentry' old result hresult
      rw [hlines, mem_singleton] at hline
      subst hline
      have hvalue := Option.some.inj (hentry.entry.symm.trans hentry'.entry)
      cases hvalue
      simp only [assignMember] at hresult
      split at hresult
      · exact Option.some.inj hresult ▸ hread text htext old
      · cases hresult

/-- The object written and read into a new one. -/
def reread (own : Option Text) (members : List Member) : Reader :=
  fromIni own (fresh members) (toIni own members)

/-- Before, at and behind one of the members. -/
theorem reread_middle (own : Option IniGroup) (pre post : List Member) (m : Member) :
    reread (IniGroup.text own) (pre ++ m :: post) =
      readLines (IniGroup.text own)
        (readLines (IniGroup.text own)
          (readLines (IniGroup.text own)
            ⟨IniGroup.start own, fresh pre ++ m.blank :: fresh post, none⟩
            (lineViews (pre.flatMap Member.write)))
          (lineViews m.write))
        (lineViews (post.flatMap Member.write)) := by
  have hlines : lineViews ((pre ++ m :: post).flatMap Member.write) =
      lineViews (pre.flatMap Member.write) ++
        (lineViews m.write ++ lineViews (post.flatMap Member.write)) := by
    rw [lineViews_members, lineViews_members, lineViews_members, flatMap_append, flatMap_cons]
  rw [reread, fromIni_toIni, hlines, readLines_append, readLines_append, fresh_append, fresh_cons]

end JobIni

end JobIo

/-!
## INI string lists

The escaped items hold nothing that the lines, the trimming or the entries are
cut at. Every list comes back but the empty one.
-/

namespace JobIo

namespace JobIni

theorem plain_escapeByte (c : UInt8) : Plain (escapeByte c) := by
  simp only [escapeByte]
  split_ifs with h₁ h₂ h₃ h₄ h₅ h₆
  case neg =>
    intro d hd hmem
    cases List.mem_singleton.1 hd
    simp only [List.mem_cons, List.not_mem_nil, or_false] at hmem
    rcases hmem with h | h | h | h <;> contradiction
  all_goals decide

theorem plain_flatMap {β : Type*} {items : List β} {write : β → Text}
    (h : ∀ item, Plain (write item)) : Plain (items.flatMap write) := by
  intro c hc
  obtain ⟨item, -, hmem⟩ := List.mem_flatMap.1 hc
  exact h item c hmem

theorem plain_writeItems (items : List Text) : Plain (writeItems items) := by
  refine plain_flatMap fun item => (plain_flatMap plain_escapeByte).append ?_
  intro c hc
  cases List.mem_singleton.1 hc
  decide

/-- One byte of an item. -/
theorem readItems_escapeByte (c : UInt8) (current : Text) (ended : Bool) (rest : Text) :
    readItems current false ended (escapeByte c ++ rest) =
      readItems (current ++ [c]) false false rest := by
  simp only [escapeByte]
  split_ifs with h₁ h₂ h₃ h₄ h₅ h₆
  case neg => simp [readItems, h₅, h₆]
  all_goals subst c; rfl

/-- An item and its separator. -/
theorem readItems_item (item current : Text) (ended : Bool) (rest : Text) :
    readItems current false ended (appendEscapedIniString item ++ Grammar.ListSeparator :: rest) =
      (current ++ item) :: readItems [] false true rest := by
  induction item generalizing current ended with
  | nil =>
    rw [List.append_nil]
    rfl
  | cons c item ih =>
    have hcons : appendEscapedIniString (c :: item) ++ Grammar.ListSeparator :: rest =
        escapeByte c ++ (appendEscapedIniString item ++ Grammar.ListSeparator :: rest) := by
      rw [appendEscapedIniString, List.flatMap_cons, List.append_assoc]
      rfl
    rw [hcons, readItems_escapeByte, ih, List.append_assoc, List.singleton_append]

theorem writeItems_cons (item : Text) (items : List Text) :
    writeItems (item :: items) =
      appendEscapedIniString item ++ Grammar.ListSeparator :: writeItems items := by
  rw [writeItems, List.flatMap_cons, List.append_assoc]
  rfl

theorem readItems_writeItems (items : List Text) :
    readItems [] false true (writeItems items) = items := by
  induction items with
  | nil => rfl
  | cons item items ih => rw [writeItems_cons, readItems_item, ih, List.nil_append]

/-- No item at all is read as an empty one. -/
theorem deserialize_writeItems (items : List Text) :
    deserializeIniStringList (writeItems items) = if items = [] then [[]] else items := by
  cases items with
  | nil => rfl
  | cons item items =>
    rw [deserializeIniStringList, writeItems_cons, readItems_item, readItems_writeItems,
      List.nil_append, if_neg (List.cons_ne_nil _ _)]

/-- A member of type `std::vector<std::string>`. -/
def listMember (name : Text) (init items : List Text) : Member :=
  ⟨name, .value .stringList, init, items⟩

/-- Lists keep to themselves. -/
theorem contained_listMember {I : Identifiers} {name : Text} (hname : I.IsName name)
    (init items : List Text) : Contained I (listMember name init items) := by
  apply contained_value hname
  · intro text htext
    cases htext
    exact plain_writeItems items
  · intro text _ old
    rfl

theorem listMember_injective {name : Text} {init items items' : List Text}
    (h : listMember name init items = listMember name init items') : items = items' := by
  injection h with _ _ _ hvalue

variable {I : Identifiers}

/-- The member's one line is read into it. -/
theorem readLines_listMember (own : Option IniGroup) (items : List Text) {r : Reader}
    {pre post : List Member} {name : Text} {init old : List Text} (hr : r.error = none)
    (hgroup : r.group = IniGroup.start own)
    (hmembers : r.members = pre ++ listMember name init old :: post)
    (hmapped : Mapped I (pre ++ listMember name init old :: post)) :
    readLines (IniGroup.text own) r (lineViews (listMember name init items).write) =
      { r with
        members := pre ++ listMember name init (deserializeIniStringList (writeItems items)) :: post } := by
  have hname : I.IsName name := hmapped.isName (listMember name init old) (by simp)
  have hlines : lineViews (listMember name init items).write =
      [name ++ Grammar.Assignment :: writeItems items] :=
    Identifiers.lineViews_entry hname (plain_writeItems items)
  have hentry := Identifiers.isEntry hname (plain_writeItems items)
  have hassign : assignFirst name name [] (writeItems items) (pre ++ listMember name init old :: post) =
      some (true, pre ++ listMember name init (deserializeIniStringList (writeItems items)) :: post) := by
    rw [assignFirst_middle hentry.split hmapped.middle.1 hmapped.middle.2, Member.assign]
    simp only [listMember, assignMember]
    rfl
  rw [← hmembers] at hassign
  have hopen : (IniGroup.text own).any (· ≠ r.group) = false := hgroup ▸ IniGroup.any_start own
  rw [hlines, readLines, List.foldl_cons, readLine_entry hr hentry]
  exact deserializeIniEntry_some hopen hentry.split hassign

/-- Whatever stands around it, the list is read as its text says. -/
theorem fromIni_listMember (own : Option IniGroup) {pre post : List Member} {name : Text}
    {init items : List Text} (hmapped : Mapped I (pre ++ listMember name init items :: post))
    (hothers : ∀ m ∈ pre ++ post, Contained I m) :
    ∃ pre' post', fresh pre' = fresh pre ∧
      reread (IniGroup.text own) (pre ++ listMember name init items :: post) =
        ⟨IniGroup.start own,
          pre' ++ listMember name init (deserializeIniStringList (writeItems items)) :: post', none⟩ := by
  have hpre : ∀ m ∈ pre, Contained I m := fun m hm => hothers m (List.mem_append_left _ hm)
  have hpost : ∀ m ∈ post, Contained I m := fun m hm => hothers m (List.mem_append_right _ hm)
  have hblank : (listMember name init items).blank = listMember name init init := rfl
  have hstart : Mapped I (fresh pre ++ listMember name init init :: fresh post) := by
    apply hmapped.of_fresh_eq
    rw [fresh_append, fresh_append, fresh_fresh, fresh_cons, fresh_fresh]
    rfl
  obtain ⟨pre', hpre', hreadPre⟩ := readLines_contained (IniGroup.text own) [] _
    (r := ⟨IniGroup.start own, fresh pre ++ listMember name init init :: fresh post, none⟩) rfl rfl
    hstart (fresh_fresh pre) hpre
  have hmiddle : Mapped I (pre' ++ listMember name init init :: fresh post) := by
    apply hstart.of_fresh_eq
    rw [fresh_append, fresh_append, hpre']
  have hreadList := readLines_listMember own items
    (r := ⟨IniGroup.start own, pre' ++ listMember name init init :: fresh post, none⟩) rfl rfl rfl hmiddle
  set read := deserializeIniStringList (writeItems items)
  have hbehind : Mapped I ((pre' ++ [listMember name init read]) ++ (fresh post ++ [])) := by
    rw [List.append_assoc, List.append_nil]
    exact hmiddle.with_value read
  obtain ⟨post', -, hreadPost⟩ := readLines_contained (IniGroup.text own)
    (pre' ++ [listMember name init read]) [] (r := ⟨IniGroup.start own,
      (pre' ++ [listMember name init read]) ++ (fresh post ++ []), none⟩) rfl rfl hbehind
    (fresh_fresh post) hpost
  refine ⟨pre', post', hpre'.trans (fresh_fresh pre), ?_⟩
  rw [reread_middle]
  rw [List.append_nil, List.append_nil, List.append_assoc, List.append_assoc] at hreadPost
  exact (congrArg (fun r => readLines _ (readLines _ r _) _) hreadPre).trans
    ((congrArg (fun r => readLines _ r _) hreadList).trans hreadPost)

/-- In an object whose other members keep to themselves, a list comes back if
and only if it has an item. -/
theorem stringList_roundTrip (own : Option IniGroup) {pre post : List Member} {name : Text}
    {init items : List Text} (hmapped : Mapped I (pre ++ listMember name init items :: post))
    (hothers : ∀ m ∈ pre ++ post, Contained I m) :
    ((reread (IniGroup.text own) (pre ++ listMember name init items :: post)).error = none ∧
      (reread (IniGroup.text own) (pre ++ listMember name init items :: post)).members[pre.length]? =
        some (listMember name init items)) ↔ items ≠ [] := by
  obtain ⟨pre', post', hpre', hread⟩ := fromIni_listMember own hmapped hothers
  have hlength : pre.length = pre'.length := by
    have heq := congrArg List.length hpre'
    rw [fresh, fresh, List.length_map, List.length_map] at heq
    exact heq.symm
  rw [hread, hlength, List.getElem?_append_right (Nat.le_refl _), Nat.sub_self,
    List.getElem?_cons_zero, deserialize_writeItems]
  constructor
  · rintro ⟨-, heq⟩ rfl
    exact List.cons_ne_nil _ _ (listMember_injective (Option.some.inj heq))
  · intro hne
    rw [if_neg hne]
    exact ⟨rfl, rfl⟩

theorem stringList_roundTrip_two :
    (reread none [listMember [98] [] [], listMember [97] [] [[32, 59], []]]).error = none ∧
      (reread none [listMember [98] [] [], listMember [97] [] [[32, 59], []]]).members[1]? =
        some (listMember [97] [] [[32, 59], []]) := by
  have hmapped : Mapped .lowercase
      ([listMember [98] [] []] ++ listMember [97] [] [[32, 59], []] :: []) := by
    constructor
    · intro m hm
      simp only [List.cons_append, List.nil_append, List.mem_cons, List.not_mem_nil, or_false] at hm
      rcases hm with rfl | rfl <;> exact ⟨List.cons_ne_nil _ _, List.forall_mem_singleton.2 (by decide)⟩
    · decide
  refine (stringList_roundTrip none hmapped ?_).2 (List.cons_ne_nil _ _)
  intro m hm
  cases List.mem_singleton.1 hm
  exact contained_listMember (hmapped.isName _ List.mem_cons_self) [] []

/-- No item becomes one. -/
theorem emptyList_gains_item :
    (reread none [listMember [97] [] []]).members = [listMember [97] [] [[]]] ∧
      (reread none [listMember [97] [] []]).members ≠ [listMember [97] [] []] := by
  have hread : (reread none [listMember [97] [] []]).members = [listMember [97] [] [[]]] := rfl
  refine ⟨hread, fun heq => ?_⟩
  rw [hread] at heq
  exact List.cons_ne_nil _ _ (listMember_injective (List.cons.inj heq).1)

end JobIni

end JobIo
