import OddBuilder.Io.IniMembers

/-!
# Isolation of text members

Two runs over objects that differ in one text. While its lines are harmless, the
runs differ in that member alone. A line that is not harmless shows in some object.
-/

namespace JobIo

open List

namespace JobIni

open Grammar

variable {text line : Text} {lines : List Text}

/-- The types whose values are text as it stands. -/
inductive TextType where
  | string
  | localized

namespace TextType

def type : TextType → MemberType
  | .string => .value .string
  | .localized => .localized

/-- The value that holds one text. -/
def holding : (kind : TextType) → Text → kind.type.Value
  | .string, text => text
  | .localized, text => (⟨text, []⟩ : LocalizedString)

end TextType

def textMember (kind : TextType) (name : Text) (init value : kind.type.Value) : Member :=
  ⟨name, kind.type, init, value⟩

def Alphanumeric (text : Text) : Prop :=
  ∀ c ∈ text, 48 ≤ c ∧ c ≤ 57 ∨ 65 ≤ c ∧ c ≤ 90 ∨ 97 ≤ c ∧ c ≤ 122

/-- The results for two values of one member do not differ elsewhere. -/
structure Isolated (own : Option Text) (pre post : List Member) (m m' : Member) : Prop where
  error : (reread own (pre ++ m :: post)).error.isNone = (reread own (pre ++ m' :: post)).error.isNone
  group : (reread own (pre ++ m :: post)).group = (reread own (pre ++ m' :: post)).group
  members : (reread own (pre ++ m :: post)).members.eraseIdx pre.length =
    (reread own (pre ++ m' :: post)).members.eraseIdx pre.length

variable {I : Identifiers} {kind : TextType} {name : Text}

theorem Alphanumeric.plain (h : Alphanumeric text) : Plain text := by
  have hlt : [NewLine, CarriageReturn, Space, Tab].all
      (· < 48) = true := by decide
  intro c hc hmem
  have hle : 48 ≤ c := by
    rcases h c hc with h | h | h
    · exact h.1
    · exact UInt8.le_trans (by decide) h.1
    · exact UInt8.le_trans (by decide) h.1
  exact UInt8.not_lt.2 hle (of_decide_eq_true (all_eq_true.1 hlt c hmem))

/-- Whether text is assigned does not depend on what was there, and it never fails. -/
theorem assign_text (kind : TextType) (name key base locale value : Text) :
    (∀ v, assignMember name key base locale value kind.type v = none) ∨
      ∀ v, ∃ w, assignMember name key base locale value kind.type v = some (true, w) := by
  cases kind with
  | string =>
    by_cases h : locale = [] ∧ key = name
    · exact .inr fun v => ⟨value, if_pos h⟩
    · exact .inl fun v => if_neg h
  | localized =>
    by_cases h : base = name
    · exact .inr fun v => ⟨_, if_pos h⟩
    · exact .inl fun v => if_neg h

theorem accepts_text (kind : TextType) (name : Text) (init value : kind.type.Value) (line : Text) :
    (textMember kind name init value).Accepts line := by
  intro key base locale text _ old result hresult
  rcases assign_text kind name key base locale text with hnone | hsome
  · exact absurd (hresult.symm.trans (hnone old)) (Option.some_ne_none _)
  · obtain ⟨w, hw⟩ := hsome old
    cases hw.symm.trans hresult
    rfl

theorem contained_text {init value : kind.type.Value}
    (h : ∀ line ∈ lineViews (textMember kind name init value).write,
      Harmless I name (trimView line)) : Contained I (textMember kind name init value) :=
  ⟨h, fun line _ => accepts_text kind name init value (trimView line)⟩

/-- Readers that differ in the text of the member at `k`. -/
def Twin (kind : TextType) (name : Text) (init : kind.type.Value) (k : Nat) (r r' : Reader) : Prop :=
  ∃ group error pre post v v', pre.length = k ∧
    r = ⟨group, pre ++ textMember kind name init v :: post, error⟩ ∧
    r' = ⟨group, pre ++ textMember kind name init v' :: post, error⟩

variable {init : kind.type.Value} {k : Nat} {r r' : Reader} {own : Option Text}

theorem assignFirst_twin (key base locale value name : Text) (init : kind.type.Value)
    (pre post : List Member) (v v' : kind.type.Value) :
    (assignFirst key base locale value (pre ++ textMember kind name init v :: post) = none ∧
      assignFirst key base locale value (pre ++ textMember kind name init v' :: post) = none) ∨
    ∃ success pre' post' w w', pre'.length = pre.length ∧
      assignFirst key base locale value (pre ++ textMember kind name init v :: post) =
        some (success, pre' ++ textMember kind name init w :: post') ∧
      assignFirst key base locale value (pre ++ textMember kind name init v' :: post) =
        some (success, pre' ++ textMember kind name init w' :: post') := by
  rw [assignFirst_append, assignFirst_append]
  cases hpre : assignFirst key base locale value pre with
  | some found =>
    obtain ⟨success, pre'⟩ := found
    have hlength := congrArg List.length (assignFirst_fresh hpre)
    rw [fresh, fresh, length_map, length_map] at hlength
    exact .inr ⟨success, pre', post, v, v', hlength, rfl, rfl⟩
  | none =>
    simp only [assignFirst, Member.assign, textMember]
    rcases assign_text kind name key base locale value with hnone | hsome
    · rw [hnone v, hnone v']
      cases assignFirst key base locale value post with
      | none => exact .inl ⟨rfl, rfl⟩
      | some found => exact .inr ⟨found.1, pre, found.2, v, v', rfl, rfl, rfl⟩
    · obtain ⟨w, hw⟩ := hsome v
      obtain ⟨w', hw'⟩ := hsome v'
      rw [hw, hw']
      exact .inr ⟨true, pre, post, w, w', rfl, rfl, rfl⟩

theorem Twin.readLine (h : Twin kind name init k r r') (line : Text) :
    Twin kind name init k (readLine own r line) (readLine own r' line) := by
  obtain ⟨group, error, pre, post, v, v', rfl, rfl, rfl⟩ := h
  cases error with
  | some e =>
    exact ⟨group, some e, pre, post, v, v', rfl, rfl, rfl⟩
  | none =>
    simp only [JobIni.readLine]
    cases classify (trimView line) with
    | Empty => exact ⟨group, none, pre, post, v, v', rfl, rfl, rfl⟩
    | Comment => exact ⟨group, none, pre, post, v, v', rfl, rfl, rfl⟩
    | Group =>
      cases groupView (trimView line) with
      | none => exact ⟨group, _, pre, post, v, v', rfl, rfl, rfl⟩
      | some other => exact ⟨other, none, pre, post, v, v', rfl, rfl, rfl⟩
    | Entry =>
      cases entryView (trimView line) with
      | none => exact ⟨group, _, pre, post, v, v', rfl, rfl, rfl⟩
      | some entry =>
        simp only [deserializeIniEntry]
        cases own.any (· ≠ group) with
        | true => exact ⟨group, none, pre, post, v, v', rfl, rfl, rfl⟩
        | false =>
          cases localizedKeyView entry.1 with
          | none => exact ⟨group, _, pre, post, v, v', rfl, rfl, rfl⟩
          | some split =>
            simp only
            obtain ⟨hnone, hnone'⟩ | ⟨success, pre', post', w, w', hlength, hsome, hsome'⟩ :=
              assignFirst_twin entry.1 split.1 split.2 entry.2 name init pre post v v'
            · rw [hnone, hnone']
              exact ⟨group, none, pre, post, v, v', rfl, rfl, rfl⟩
            · rw [hsome, hsome']
              cases success <;> exact ⟨group, _, pre', post', w, w', hlength, rfl, rfl⟩

theorem Twin.readLines (h : Twin kind name init k r r') (lines : List Text) :
    Twin kind name init k (readLines own r lines) (readLines own r' lines) := by
  induction lines generalizing r r' with
  | nil => exact h
  | cons line lines ih => exact ih (h.readLine line)

theorem Twin.eraseIdx_eq (h : Twin kind name init k r r') :
    r.error = r'.error ∧ r.group = r'.group ∧ r.members.eraseIdx k = r'.members.eraseIdx k := by
  obtain ⟨group, error, pre, post, v, v', rfl, rfl, rfl⟩ := h
  refine ⟨rfl, rfl, ?_⟩
  simp [eraseIdx_append_of_length_le (Nat.le_refl _)]

/-- The member stays where it is. -/
theorem exists_textMember {members pre post : List Member} {value : kind.type.Value}
    (h : fresh members = fresh (pre ++ textMember kind name init value :: post)) :
    ∃ pre' post' v, pre'.length = pre.length ∧
      members = pre' ++ textMember kind name init v :: post' := by
  obtain ⟨pre', rest, rfl, hpre', hrest⟩ := map_eq_append_iff.1 (h.trans (fresh_append _ _))
  obtain ⟨m, post', rfl, hm, -⟩ := map_eq_cons_iff.1 hrest
  obtain ⟨v, rfl⟩ := eq_of_blank_eq hm
  have hlength := congrArg List.length hpre'
  rw [fresh, length_map, length_map] at hlength
  exact ⟨pre', post', v, hlength, rfl⟩

/-- What comes before the member is read alike, and then only the member's value
can differ. -/
theorem twin_of_contained (own : Option IniGroup) {pre post : List Member}
    {value value' : kind.type.Value}
    (hmapped : Mapped I (pre ++ textMember kind name init value :: post))
    (h : Contained I (textMember kind name init value))
    (h' : Contained I (textMember kind name init value')) :
    Twin kind name init pre.length
      (reread (IniGroup.text own) (pre ++ textMember kind name init value :: post))
      (reread (IniGroup.text own) (pre ++ textMember kind name init value' :: post)) := by
  have hblank : (textMember kind name init value).blank = textMember kind name init init := rfl
  have hblank' : (textMember kind name init value').blank = textMember kind name init init := rfl
  rw [reread_middle, reread_middle, hblank, hblank']
  refine Twin.readLines ?_ _
  generalize hr : readLines (IniGroup.text own)
    ⟨IniGroup.start own, fresh pre ++ textMember kind name init init :: fresh post, none⟩
    (lineViews (pre.flatMap Member.write)) = r
  have hfresh : fresh r.members = fresh (pre ++ textMember kind name init value :: post) := by
    rw [← hr, readLines_fresh, fresh_append, fresh_fresh, fresh_cons, fresh_fresh, fresh_append]
    rfl
  obtain ⟨pre', post', v, hlength, hmembers⟩ := exists_textMember hfresh
  have hmapped' : Mapped I (pre' ++ textMember kind name init v :: post') := by
    have hnew := hmapped.of_fresh_eq hfresh
    rwa [hmembers] at hnew
  cases herror : r.error with
  | some e =>
    have hsome : r.error.isSome := by rw [herror]; rfl
    rw [readLines_error hsome, readLines_error hsome]
    have hsame : r = ⟨r.group, pre' ++ textMember kind name init v :: post', r.error⟩ := by
      rw [← hmembers]
    exact ⟨r.group, r.error, pre', post', v, v, hlength, hsame, hsame⟩
  | none =>
    obtain ⟨w, hw⟩ := readLines_harmless (IniGroup.text own) herror hmembers hmapped' h.harmless
      fun line hline => accepts_text kind name init v (trimView line)
    obtain ⟨w', hw'⟩ := readLines_harmless (IniGroup.text own) herror hmembers hmapped' h'.harmless
      fun line hline => accepts_text kind name init v (trimView line)
    exact ⟨r.group, r.error, pre', post', w, w', hlength, hw, hw'⟩

theorem lineViews_holding (hname : I.IsName name) (init : kind.type.Value) (htext : Plain text) :
    lineViews (textMember kind name init (kind.holding text)).write =
      [name ++ Assignment :: text] := by
  have hlines := Identifiers.lineViews_entry hname htext
  cases kind with
  | string => exact hlines
  | localized =>
    rw [← hlines]
    exact congrArg lineViews (append_nil _)

theorem contained_holding (hname : I.IsName name) (init : kind.type.Value) (htext : Plain text) :
    Contained I (textMember kind name init (kind.holding text)) := by
  apply contained_text
  intro line hline
  rw [lineViews_holding hname init htext, mem_singleton] at hline
  exact hline ▸ .entry (Identifiers.isEntry hname htext) fun _ => rfl

/-- Plain text is read wherever its member stands, in any group. -/
theorem readLines_holding (own : Option Text) (group : Text) (pre post : List Member)
    {v : kind.type.Value} (hmapped : Mapped I (pre ++ textMember kind name init v :: post))
    (htext : Plain text) :
    ∃ w, readLines own ⟨group, pre ++ textMember kind name init v :: post, none⟩
        (lineViews (textMember kind name init (kind.holding text)).write) =
      ⟨group, pre ++ textMember kind name init w :: post, none⟩ := by
  have hname : I.IsName name := hmapped.isName (textMember kind name init v) (by simp)
  exact readLines_harmless own rfl rfl hmapped (contained_holding hname init htext).harmless
    fun line _ => accepts_text kind name init v (trimView line)

theorem error_of_readLine (h : (readLine own r line).error = none) : r.error = none := by
  cases hr : r.error with
  | none => rfl
  | some e => rw [readLine_error (by rw [hr]; rfl), hr] at h; exact h

theorem error_of_readLines (h : (readLines own r lines).error = none) : r.error = none := by
  cases hr : r.error with
  | none => rfl
  | some e => rw [readLines_error (by rw [hr]; rfl), hr] at h; exact h

theorem deserializeIniEntry_group (own : Option Text) (r : Reader) (key value : Text) :
    (deserializeIniEntry own r key value).group = r.group := by
  rw [deserializeIniEntry]
  split
  · rfl
  · split
    · rfl
    · split <;> rfl

/-- The group behind a line depends on the group before it alone. -/
theorem readLine_group (h : (readLine own r line).error = none)
    (h' : (readLine own r' line).error = none)
    (hgroup : r.group = r'.group ∨ classify (trimView line) = .Group) :
    (readLine own r line).group = (readLine own r' line).group := by
  have hr := error_of_readLine h
  have hr' := error_of_readLine h'
  simp only [readLine, hr, hr'] at h h' ⊢
  cases hclass : classify (trimView line) with
  | Empty => simpa [hclass] using hgroup
  | Comment => simpa [hclass] using hgroup
  | Group =>
    cases hview : groupView (trimView line) with
    | none => simp [hclass, hview] at h
    | some g => rfl
  | Entry =>
    have hsame : r.group = r'.group := by simpa [hclass] using hgroup
    cases hview : entryView (trimView line) with
    | none => exact hsame
    | some entry =>
      exact (deserializeIniEntry_group own r _ _).trans
        (hsame.trans (deserializeIniEntry_group own r' _ _).symm)

/-- Behind a group line, two runs without error stand in one group. -/
theorem readLines_group (h : (readLines own r lines).error = none)
    (h' : (readLines own r' lines).error = none)
    (hgroup : r.group = r'.group ∨ ∃ line ∈ lines, classify (trimView line) = .Group) :
    (readLines own r lines).group = (readLines own r' lines).group := by
  induction lines generalizing r r' with
  | nil =>
    rcases hgroup with hsame | ⟨_, hmem, _⟩
    · exact hsame
    · cases hmem
  | cons line lines ih =>
    refine ih h h' ?_
    have hline := readLine_group (error_of_readLines h) (error_of_readLines h')
    rcases hgroup with hsame | ⟨other, hother, hclass⟩
    · exact .inl (hline (.inl hsame))
    · rcases mem_cons.1 hother with rfl | hother
      · exact .inl (hline (.inr hclass))
      · exact .inr ⟨other, hother, hclass⟩

/-- In the object's group, a line without error is no entry or a whole one. -/
theorem readLine_entries (h : (readLine own r line).error = none)
    (hopen : own.any (· ≠ r.group) = false) (hclass : classify (trimView line) ≠ .Group) :
    (classify (trimView line) = .Empty ∨ classify (trimView line) = .Comment ∨
      ∃ key base locale value, IsEntry (trimView line) key base locale value) ∧
      (readLine own r line).group = r.group := by
  have hr := error_of_readLine h
  simp only [readLine, hr] at h ⊢
  cases hline : classify (trimView line) with
  | Empty => exact ⟨.inl rfl, rfl⟩
  | Comment => exact ⟨.inr (.inl rfl), rfl⟩
  | Group => exact absurd hline hclass
  | Entry =>
    cases hview : entryView (trimView line) with
    | none => simp [hline, hview] at h
    | some entry =>
      obtain ⟨key, value⟩ := entry
      simp only [hline, hview] at h
      cases hkey : localizedKeyView key with
      | none =>
        simp only [deserializeIniEntry, hopen, hkey] at h
        cases h
      | some split =>
        exact ⟨.inr (.inr ⟨key, split.1, split.2, value, hline, hview, hkey⟩),
          deserializeIniEntry_group own r key value⟩

theorem readLines_entries (h : (readLines own r lines).error = none)
    (hopen : own.any (· ≠ r.group) = false)
    (hclass : ∀ line ∈ lines, classify (trimView line) ≠ .Group) :
    ∀ line ∈ lines, classify (trimView line) = .Empty ∨ classify (trimView line) = .Comment ∨
      ∃ key base locale value, IsEntry (trimView line) key base locale value := by
  induction lines generalizing r with
  | nil => exact fun _ hline => absurd hline not_mem_nil
  | cons line lines ih =>
    have hline := readLine_entries (error_of_readLines h) hopen (hclass line mem_cons_self)
    intro other hother
    rcases mem_cons.1 hother with rfl | hother
    · exact hline.1
    · exact ih h (by rw [hline.2]; exact hopen) (fun other hother => hclass other
        (mem_cons_of_mem _ hother)) other hother

/-- A localized string that one of these values, or any locale, was assigned to. -/
def Touched (values : List Text) (v : LocalizedString) : Prop :=
  v.value ∈ values ∨ v.localized ≠ []

theorem assignLocale_ne_nil (locale value : Text) (localized : List (Text × Text)) :
    assignLocale locale value localized ≠ [] := by
  cases localized with
  | nil => exact cons_ne_nil _ _
  | cons entry rest =>
    rw [assignLocale]
    split_ifs <;> exact cons_ne_nil _ _

/-- A localized string and a text behind it. -/
def pairReader (group other : Text) (old v : LocalizedString) (name : Text)
    (init w : kind.type.Value) : Reader :=
  ⟨group, [textMember .localized other old v, textMember kind name init w], none⟩

theorem readLine_pair {values : List Text} (group other : Text) (old v : LocalizedString)
    (name : Text) (init w : kind.type.Value) (hopen : own.any (· ≠ group) = false)
    (hline : classify (trimView line) = .Empty ∨ classify (trimView line) = .Comment ∨
      ∃ key base locale value, IsEntry (trimView line) key base locale value ∧ value ∈ values) :
    ∃ v' w', readLine own (pairReader group other old v name init w) line =
        pairReader group other old v' name init w' ∧
      (Touched values v → Touched values v') ∧
      ∀ key locale value, IsEntry (trimView line) key other locale value → Touched values v' := by
  rcases hline with hclass | hclass | ⟨key, base, locale, value, hentry, hvalue⟩
  · refine ⟨v, w, readLine_skip (.inl hclass), id, fun key locale value hentry => ?_⟩
    cases hclass.symm.trans hentry.classified
  · refine ⟨v, w, readLine_skip (.inr hclass), id, fun key locale value hentry => ?_⟩
    cases hclass.symm.trans hentry.classified
  · rw [readLine_entry rfl hentry]
    by_cases hbase : base = other
    · obtain ⟨v', hassign, htouched⟩ : ∃ v' : LocalizedString,
          (textMember .localized other old v).assign key base locale value =
            some (true, textMember .localized other old v') ∧ Touched values v' := by
        refine ⟨if locale = [] then { v with value := value }
          else { v with localized := assignLocale locale value v.localized }, ?_, ?_⟩
        · exact congrArg (Option.map _) (if_pos hbase)
        · split
          · exact .inl hvalue
          · exact .inr (assignLocale_ne_nil _ _ _)
      refine ⟨v', w, deserializeIniEntry_some hopen hentry.split ?_, fun _ => htouched,
        fun _ _ _ _ => htouched⟩
      simp [pairReader, assignFirst, hassign]
    · have hother : ∀ key' locale' value', ¬ IsEntry (trimView line) key' other locale' value' := by
        intro key' locale' value' hentry'
        obtain ⟨rfl⟩ := Prod.mk.inj (Option.some.inj (hentry.entry.symm.trans hentry'.entry))
        have hsplit := Option.some.inj (hentry.split.symm.trans hentry'.split)
        exact hbase (Prod.mk.inj hsplit).1
      have hskip := assign_other (m := textMember .localized other old v) value hentry.split hbase
      rcases assign_text kind name key base locale value with hnone | hsome
      · refine ⟨v, w, deserializeIniEntry_none hopen hentry.split ?_, id,
          fun _ _ _ h => absurd h (hother _ _ _)⟩
        have hassign : (textMember kind name init w).assign key base locale value = none :=
          congrArg (Option.map _) (hnone w)
        simp [pairReader, assignFirst, hskip, hassign]
      · obtain ⟨w', hw'⟩ := hsome w
        refine ⟨v, w', deserializeIniEntry_some hopen hentry.split ?_, id,
          fun _ _ _ h => absurd h (hother _ _ _)⟩
        have hassign : (textMember kind name init w).assign key base locale value =
            some (true, textMember kind name init w') := congrArg (Option.map _) hw'
        simp [pairReader, assignFirst, hskip, hassign]

theorem readLines_pair {values : List Text} (group other : Text) (old v : LocalizedString)
    (name : Text) (init w : kind.type.Value) (hopen : own.any (· ≠ group) = false)
    (hlines : ∀ line ∈ lines, classify (trimView line) = .Empty ∨
      classify (trimView line) = .Comment ∨
      ∃ key base locale value, IsEntry (trimView line) key base locale value ∧ value ∈ values) :
    ∃ v' w', readLines own (pairReader group other old v name init w) lines =
        pairReader group other old v' name init w' ∧
      ((Touched values v ∨ ∃ line ∈ lines, ∃ key locale value,
        IsEntry (trimView line) key other locale value) → Touched values v') := by
  induction lines generalizing v w with
  | nil =>
    refine ⟨v, w, rfl, ?_⟩
    rintro (h | ⟨_, hmem, _⟩)
    · exact h
    · cases hmem
  | cons line lines ih =>
    obtain ⟨v₁, w₁, hread, hkeep, hentry⟩ := readLine_pair group other old v name init w hopen
      (hlines line mem_cons_self)
    obtain ⟨v₂, w₂, hrest, hlater⟩ := ih v₁ w₁
      fun next hnext => hlines next (mem_cons_of_mem _ hnext)
    refine ⟨v₂, w₂, ?_, ?_⟩
    · rw [readLines, foldl_cons, hread]
      exact hrest
    · rintro (h | ⟨next, hnext, hshow⟩)
      · exact hlater (.inl (hkeep h))
      · rcases mem_cons.1 hnext with rfl | hnext
        · obtain ⟨key, locale, value, hshow⟩ := hshow
          exact hlater (.inl (hentry key locale value hshow))
        · exact hlater (.inr ⟨next, hnext, hshow⟩)

theorem reread_single (own : Option IniGroup) (m : Member) :
    reread (IniGroup.text own) [m] =
      readLines (IniGroup.text own) ⟨IniGroup.start own, [m.blank], none⟩ (lineViews m.write) := by
  rw [reread, fromIni_toIni, flatMap_cons, flatMap_nil, append_nil]
  rfl

theorem reread_pair (own : Option IniGroup) (first m : Member) :
    reread (IniGroup.text own) [first, m] =
      readLines (IniGroup.text own)
        (readLines (IniGroup.text own) ⟨IniGroup.start own, [first.blank, m.blank], none⟩
          (lineViews first.write)) (lineViews m.write) := by
  rw [reread, fromIni_toIni, lineViews_members, flatMap_cons, flatMap_cons,
    flatMap_nil, append_nil, readLines_append]
  rfl

theorem IniGroup.exists_other (own : Option IniGroup) :
    ∃ g : IniGroup, g.name ≠ IniGroup.start own := by
  by_cases h : IniGroup.start own = [97]
  · exact ⟨⟨[98], by decide, by decide⟩, by rw [h]; decide⟩
  · exact ⟨⟨[97], by decide, by decide⟩, Ne.symm h⟩

/-- Text whose second line selects a group. -/
def selecting (g : IniGroup) : Text :=
  NewLine :: (GroupOpen :: g.name ++ [GroupClose])

theorem readLines_selecting (own : Option Text) (group : Text) (g : IniGroup) {other : Text}
    {m : Member} (hmapped : Mapped I [textMember .string other [] (selecting g), m]) :
    ∃ v, readLines own ⟨group, [textMember .string other [] [], m], none⟩
        (lineViews (textMember .string other [] (selecting g)).write) =
      ⟨g.name, [textMember .string other [] v, m], none⟩ := by
  have hname : I.IsName other :=
    hmapped.isName (textMember .string other [] (selecting g)) mem_cons_self
  have hempty : Plain [] := fun c hc => absurd hc not_mem_nil
  have hplain := Identifiers.plain_entry hname hempty
  have hwrite : (textMember .string other [] (selecting g)).write =
      (other ++ [Assignment]) ++ NewLine ::
        ((GroupOpen :: g.name ++ [GroupClose]) ++ NewLine :: []) := by
    change appendIniEntry other (selecting g) = _
    simp [appendIniEntry, selecting]
  have hmapped' : Mapped I ([] ++ textMember .string other [] [] :: [m]) := hmapped.of_fresh_eq rfl
  obtain ⟨v, hv⟩ := readLine_harmless own
    (r := ⟨group, [] ++ textMember .string other [] [] :: [m], none⟩)
    rfl rfl hmapped' (.entry (Identifiers.isEntry hname hempty) fun _ => rfl)
    (accepts_text .string other [] [] _)
  refine ⟨v, ?_⟩
  rw [hwrite, lineViews_line hplain.newLine hplain.getLast_ne, g.lineViews_name, readLines,
    foldl_cons, foldl_cons]
  exact (congrArg (fun r => readLine own r _) hv).trans (g.readLine_name own rfl)

/-- The contents of the member can never matter to anything else. -/
def AlwaysIsolated (I : Identifiers) (own : Option IniGroup) (kind : TextType) (name : Text)
    (value : kind.type.Value) : Prop :=
  ∀ pre post init text, Mapped I (pre ++ textMember kind name init value :: post) →
    Alphanumeric text →
      Isolated (IniGroup.text own) pre post (textMember kind name init value)
        (textMember kind name init (kind.holding text))

section Necessity

variable {own : Option IniGroup} {value : kind.type.Value}

theorem mapped_single (hname : I.IsName name) (init value : kind.type.Value) :
    Mapped I [textMember kind name init value] := by
  constructor
  · intro m hm
    cases mem_singleton.1 hm
    exact hname
  · exact nodup_singleton _

theorem mapped_pair (first : Member) (hname : I.IsName name) (hfirst : I.IsName first.name)
    (hne : first.name ≠ name) (init value : kind.type.Value) :
    Mapped I [first, textMember kind name init value] := by
  constructor
  · intro m hm
    rcases mem_cons.1 hm with rfl | hm
    · exact hfirst
    · cases mem_singleton.1 hm
      exact hname
  · simpa [textMember] using hne

theorem alphanumeric_nil : Alphanumeric [] := fun _ hc => absurd hc not_mem_nil

/-- Alone in its object, the text is read without error and leaves the group. -/
theorem AlwaysIsolated.single (h : AlwaysIsolated I own kind name value)
    (hname : I.IsName name) (init : kind.type.Value) :
    let r := readLines (IniGroup.text own)
      ⟨IniGroup.start own, [textMember kind name init init], none⟩
      (lineViews (textMember kind name init value).write)
    r.error = none ∧ r.group = IniGroup.start own := by
  have hiso := h [] [] init [] (mapped_single hname init value) alphanumeric_nil
  obtain ⟨v, hv⟩ := readLines_holding (IniGroup.text own) (IniGroup.start own) [] []
    (mapped_single hname init init) alphanumeric_nil.plain
  have hplain := (reread_single own (textMember kind name init (kind.holding []))).trans hv
  have herror := hiso.error
  have hgroup := hiso.group
  rw [nil_append, nil_append, reread_single, hplain] at herror hgroup
  exact ⟨Option.isNone_iff_eq_none.1 herror, hgroup⟩

/-- None of its lines selects a group. -/
theorem AlwaysIsolated.not_group (h : AlwaysIsolated I own kind name value)
    (hname : I.IsName name) :
    ∀ line ∈ lineViews (writeMember name kind.type value),
      classify (trimView line) ≠ .Group := by
  intro line hline hclass
  obtain ⟨g, hg⟩ := IniGroup.exists_other own
  obtain ⟨other, hother, hne⟩ := I.another name
  -- the member in front leaves another group behind
  set first := textMember .string other [] (selecting g)
  set init := kind.holding []
  have hmapped := mapped_pair first hname hother hne init
  obtain ⟨v, hv⟩ := readLines_selecting (IniGroup.text own) (IniGroup.start own) g (hmapped init)
  obtain ⟨w, hw⟩ := readLines_holding (IniGroup.text own) g.name [textMember .string other [] v] []
    (mapped_pair (textMember .string other [] v) hname hother hne init init) alphanumeric_nil.plain
  have hiso := h [first] [] init [] (hmapped value) alphanumeric_nil
  have hread : reread (IniGroup.text own) ([first] ++ [textMember kind name init value]) =
      readLines (IniGroup.text own)
        ⟨g.name, [textMember .string other [] v, textMember kind name init init], none⟩
        (lineViews (textMember kind name init value).write) :=
    (reread_pair own first _).trans (congrArg (fun r => readLines _ r _) hv)
  have hplain : reread (IniGroup.text own) ([first] ++ [textMember kind name init init]) =
      ⟨g.name, [textMember .string other [] v, textMember kind name init w], none⟩ :=
    (reread_pair own first _).trans ((congrArg (fun r => readLines _ r _) hv).trans hw)
  have herror := hiso.error
  have hgroup := hiso.group
  rw [hread, hplain] at herror hgroup
  obtain ⟨hsingle, hstart⟩ := h.single hname init
  have hsame := readLines_group hsingle (Option.isNone_iff_eq_none.1 herror)
    (.inr ⟨line, hline, hclass⟩)
  exact hg (hgroup.symm.trans (hsame.symm.trans hstart))

/-- Plain text that is none of these. -/
theorem exists_alphanumeric_notMem (values : List Text) : ∃ text, Alphanumeric text ∧ text ∉ values := by
  have hbound : ∃ n, ∀ value ∈ values, value.length < n := by
    induction values with
    | nil => exact ⟨0, fun _ hmem => absurd hmem not_mem_nil⟩
    | cons value values ih =>
      obtain ⟨n, hn⟩ := ih
      refine ⟨max n (value.length + 1), fun other hother => ?_⟩
      rcases mem_cons.1 hother with rfl | hother
      · exact Nat.lt_of_lt_of_le (Nat.lt_succ_self _) (Nat.le_max_right _ _)
      · exact Nat.lt_of_lt_of_le (hn other hother) (Nat.le_max_left _ _)
  obtain ⟨n, hn⟩ := hbound
  refine ⟨List.replicate n 97, fun c hc => ?_, fun hmem => ?_⟩
  · rw [eq_of_mem_replicate hc]
    decide
  · have hlt := hn _ hmem
    rw [length_replicate] at hlt
    exact Nat.lt_irrefl _ hlt

theorem textMember_injective {init value value' : kind.type.Value}
    (h : textMember kind name init value = textMember kind name init value') : value = value' := by
  injection h with _ _ _ hvalue

/-- A localized string reads its own text. -/
theorem readLines_localized {other text : Text} (hother : I.IsName other) (htext : Plain text)
    (own : Option IniGroup) (old : LocalizedString) (name : Text) (init w : kind.type.Value) :
    readLines (IniGroup.text own) (pairReader (IniGroup.start own) other old ⟨[], []⟩ name init w)
        (lineViews (textMember .localized other old ⟨text, []⟩).write) =
      pairReader (IniGroup.start own) other old ⟨text, []⟩ name init w := by
  have hlines : lineViews (textMember .localized other old ⟨text, []⟩).write =
      [other ++ Assignment :: text] :=
    lineViews_holding hother (old : TextType.localized.type.Value) htext
  have hentry := Identifiers.isEntry hother htext
  have hassign : (textMember .localized other old ⟨[], []⟩).assign other other [] text =
      some (true, textMember .localized other old ⟨text, []⟩) := by
    exact congrArg (Option.map _) (if_pos rfl)
  rw [hlines, readLines, foldl_cons, readLine_entry rfl hentry]
  refine deserializeIniEntry_some (IniGroup.any_start own) hentry.split ?_
  simp [pairReader, assignFirst, hassign]

/-- Its entries name no other member. -/
theorem AlwaysIsolated.base_eq (h : AlwaysIsolated I own kind name value) (hname : I.IsName name)
    {line key base locale text : Text} (hline : line ∈ lineViews (writeMember name kind.type value))
    (hentry : IsEntry (trimView line) key base locale text) (hbase : I.IsName base) :
    base = name := by
  by_contra hne
  set init := kind.holding []
  have hlines : ∀ line ∈ lineViews (writeMember name kind.type value),
      classify (trimView line) = .Empty ∨ classify (trimView line) = .Comment ∨
        ∃ key base locale value, IsEntry (trimView line) key base locale value :=
    readLines_entries (h.single hname init).1 (IniGroup.any_start own) (h.not_group hname)
  -- what the lines assign, and a text that is none of it
  obtain ⟨a, ha, hfresh⟩ := exists_alphanumeric_notMem
    ((lineViews (writeMember name kind.type value)).filterMap fun line =>
      (entryView (trimView line)).map Prod.snd)
  set values := (lineViews (writeMember name kind.type value)).filterMap fun line =>
    (entryView (trimView line)).map Prod.snd
  have hassigned : ∀ line ∈ lineViews (writeMember name kind.type value),
      classify (trimView line) = .Empty ∨ classify (trimView line) = .Comment ∨
        ∃ key base locale value, IsEntry (trimView line) key base locale value ∧ value ∈ values := by
    intro line hline
    rcases hlines line hline with hclass | hclass | ⟨key, base, locale, text, hentry⟩
    · exact .inl hclass
    · exact .inr (.inl hclass)
    · refine .inr (.inr ⟨key, base, locale, text, hentry, ?_⟩)
      exact mem_filterMap.2 ⟨line, hline, by rw [hentry.entry]; rfl⟩
  -- a localized string of that name, with that text, in front
  set first := textMember .localized base ⟨[], []⟩ ⟨a, []⟩
  have hmapped := mapped_pair first hname hbase hne init
  have hown := readLines_localized hbase ha.plain own ⟨[], []⟩ name init init
  obtain ⟨v, w, hread, htouched⟩ := readLines_pair (IniGroup.start own) base ⟨[], []⟩ ⟨a, []⟩ name
    init init (IniGroup.any_start own) hassigned
  obtain ⟨w', hplain⟩ := readLines_holding (IniGroup.text own) (IniGroup.start own) [first] []
    (hmapped init) alphanumeric_nil.plain
  have hiso := (h [first] [] init [] (hmapped value) alphanumeric_nil).members
  have hevil : reread (IniGroup.text own) ([first] ++ [textMember kind name init value]) =
      pairReader (IniGroup.start own) base ⟨[], []⟩ v name init w :=
    (reread_pair own first _).trans ((congrArg (fun r => readLines _ r _) hown).trans hread)
  have hkept : reread (IniGroup.text own) ([first] ++ [textMember kind name init init]) =
      ⟨IniGroup.start own, [first, textMember kind name init w'], none⟩ :=
    (reread_pair own first _).trans ((congrArg (fun r => readLines _ r _) hown).trans hplain)
  rw [hevil, hkept] at hiso
  have hsame : v = ⟨a, []⟩ := textMember_injective (List.cons.inj hiso).1
  rcases hsame ▸ htouched (.inr ⟨line, hline, key, locale, text, hentry⟩) with hmem | hlocale
  · exact hfresh hmem
  · exact hlocale rfl

end Necessity

/-- Text is isolated if and only if every line that it is written in is empty, a
comment, or an entry of its own member or of no member at all. -/
theorem alwaysIsolated_iff (own : Option IniGroup) (hname : I.IsName name)
    (value : kind.type.Value) :
    AlwaysIsolated I own kind name value ↔
      ∀ line ∈ lineViews (writeMember name kind.type value), Harmless I name (trimView line) := by
  constructor
  · intro h line hline
    rcases readLines_entries (h.single hname (kind.holding [])).1 (IniGroup.any_start own)
      (h.not_group hname) line hline with hclass | hclass | ⟨key, base, locale, text, hentry⟩
    · exact .empty hclass
    · exact .comment hclass
    · exact .entry hentry fun hbase => h.base_eq hname hline hentry hbase
  · intro h pre post init text hmapped htext
    have htwin := twin_of_contained own hmapped (contained_text h)
      (contained_holding hname init htext.plain)
    obtain ⟨herror, hgroup, hmembers⟩ := htwin.eraseIdx_eq
    exact ⟨congrArg Option.isNone herror, hgroup, hmembers⟩

/-- A comment behind a newline. -/
theorem alwaysIsolated_iff_comment :
    AlwaysIsolated .lowercase none .string [97] ([120, 10, 59, 121] : Text) := by
  have hname : Identifiers.lowercase.IsName [97] := ⟨cons_ne_nil _ _, forall_mem_singleton.2 (by decide)⟩
  refine (alwaysIsolated_iff none hname _).2 fun line hline => ?_
  have hlines : lineViews (writeMember [97] TextType.string.type ([120, 10, 59, 121] : Text)) =
      [[97] ++ Assignment :: [120], [59, 121]] := by decide
  rw [hlines, mem_cons, mem_singleton] at hline
  rcases hline with rfl | rfl
  · exact .entry (Identifiers.isEntry hname (by decide)) fun _ => rfl
  · exact .comment (by decide)

/-- A newline in `a` writes to `b`. -/
theorem newline_injects_entry :
    ¬ Isolated none [textMember .string [98] [] []] []
      (textMember .string [97] [] ([120, 10, 98, 61, 121] : Text))
      (textMember .string [97] [] ([120] : Text)) := by
  intro h
  have hinjected : reread none [textMember .string [98] [] [],
      textMember .string [97] [] ([120, 10, 98, 61, 121] : Text)] =
        ⟨[], [textMember .string [98] [] ([121] : Text), textMember .string [97] [] ([120] : Text)],
          none⟩ := rfl
  have hplain : reread none [textMember .string [98] [] [],
      textMember .string [97] [] ([120] : Text)] =
        ⟨[], [textMember .string [98] [] [], textMember .string [97] [] ([120] : Text)], none⟩ := rfl
  have hmembers := h.members
  rw [singleton_append, singleton_append, hinjected, hplain] at hmembers
  have hvalue := textMember_injective (List.cons.inj hmembers).1
  exact cons_ne_nil _ _ hvalue

end JobIni

end JobIo
