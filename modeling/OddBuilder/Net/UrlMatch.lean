import Mathlib.Data.List.TakeWhile
import OddBuilder.Net.RequestMessage

/-!
# The expression for URLs

All groups of the expression that `JobUrl` is read with, as a matcher and as the
ways to write the parts, and what may be left out of a text without making user
information where there was none.
-/

namespace JobNet

open JobUrl List Option

/-- What the expression captures from the host on. -/
structure HostMatch where
  host : Bytes
  port : Option Bytes
  path : Bytes
  query : Bytes
  fragment : Bytes
  deriving DecidableEq

/-- All groups of the expression; but for the password and the port a group that does not take part is
empty. -/
structure CompleteMatch extends HostMatch where
  scheme : Bytes
  username : Bytes
  password : Option Bytes
  deriving DecidableEq

namespace CompleteMatch

/-- The user name and the password, and what follows the `@`. -/
def matchUserInfo (text : Bytes) : Option ((Bytes × Option Bytes) × Bytes) :=
  if text.takeWhile isUserChar = [] then none
  else
    match text.dropWhile isUserChar with
    | 64 :: rest => some ((text.takeWhile isUserChar, none), rest)
    | 58 :: password =>
      if password.takeWhile (· ≠ 64) = [] then none
      else
        match password.dropWhile (· ≠ 64) with
        | 64 :: rest => some ((text.takeWhile isUserChar, some (password.takeWhile (· ≠ 64))), rest)
        | _ => none
    | _ => none

def fragmentOf : Bytes → Option Bytes
  | [] => some []
  | 35 :: text => if text.all fun c => c ≠ 10 && c ≠ 13 then some text else none
  | _ => none

def matchHostParts (text : Bytes) : Option HostMatch :=
  (matchPort (text.dropWhile isHostChar)).bind fun (port, rest) =>
    let (path, rest) := matchPath rest
    let (query, rest) := matchQuery rest
    (fragmentOf rest).map fun fragment => ⟨text.takeWhile isHostChar, port, path, query, fragment⟩

/-- User information and the parts behind it. -/
def matchWithUser (text : Bytes) : Option ((Bytes × Option Bytes) × HostMatch) :=
  (matchUserInfo text).bind fun (info, rest) => (matchHostParts rest).map (info, ·)

/-- The user information is tried first. -/
def matchAuthority (text : Bytes) : Option ((Bytes × Option Bytes) × HostMatch) :=
  (matchWithUser text).or ((matchHostParts text).map (([], none), ·))

def kUrlRegexGroups (text : Bytes) : Option CompleteMatch :=
  (matchScheme text).bind fun (scheme, rest) =>
    (matchAuthority rest).map fun (info, parts) => ⟨parts, scheme, info.1, info.2⟩

end CompleteMatch

namespace CompleteMatch

end CompleteMatch

namespace CompleteMatch

/-- A text that is empty or begins with one of the marks. -/
def Starts (marks : List UInt8) (text : Bytes) : Prop := ∀ c ∈ text.head?, c ∈ marks

theorem starts_nil (marks : List UInt8) : Starts marks [] := by
  intro c hc
  cases hc

theorem starts_cons (mark : UInt8) (text : Bytes) : Starts [mark] (mark :: text) :=
  fun _ hc => mem_singleton.mpr (Option.some.inj hc).symm

theorem Starts.append {marks marks' : List UInt8} {text rest : Bytes} (h : Starts marks text)
    (hrest : Starts marks' rest) : Starts (marks ++ marks') (text ++ rest) := by
  cases text with
  | nil => exact fun c hc => mem_append_right marks (hrest c hc)
  | cons b text => exact fun c hc => mem_append_left marks' (h c hc)

theorem Starts.not {marks : List UInt8} {text : Bytes} {p : UInt8 → Bool} (h : Starts marks text)
    (hp : (marks.all fun c => !p c) = true) : ∀ c ∈ text.head?, p c = false := fun c hc =>
  Bool.not_eq_true' (p c) ▸ all_eq_true.mp hp c (h c hc)

theorem span_append {p : UInt8 → Bool} {front rest : Bytes} (hfront : ∀ c ∈ front, p c = true)
    (hrest : ∀ c ∈ rest.head?, p c = false) :
    (front ++ rest).takeWhile p = front ∧ (front ++ rest).dropWhile p = rest := by
  rw [takeWhile_append_of_pos hfront, dropWhile_append_of_pos hfront]
  cases rest with
  | nil => exact ⟨append_nil front, rfl⟩
  | cons c rest =>
    have hc : ¬ p c = true := Bool.eq_false_iff.mp (hrest c rfl)
    rw [takeWhile_cons_of_neg hc, dropWhile_cons_of_neg hc, append_nil]
    exact ⟨rfl, rfl⟩

inductive PortSpelled : Option Bytes → Bytes → Prop where
  | absent : PortSpelled none []
  | digits {digits : Bytes} : digits ≠ [] → (∀ c ∈ digits, isDigit c = true) →
      PortSpelled (some digits) (58 :: digits)

def PathSpelled (path : Bytes) : Prop :=
  path = [] ∨ ∃ rest, path = 47 :: rest ∧ ∀ c ∈ rest, isPathChar c = true

/-- A part behind its mark; an empty part may be without it. -/
def MarkedSpelled (mark : UInt8) (allowed : UInt8 → Bool) (part text : Bytes) : Prop :=
  (∀ c ∈ part, allowed c = true) ∧ (text = mark :: part ∨ part = [] ∧ text = [])

def isQueryChar (c : UInt8) : Bool := c ≠ 35

def isFragmentChar (c : UInt8) : Bool := c ≠ 10 && c ≠ 13

/-- The ways to write the parts from the host on. -/
inductive Spelled : HostMatch → Bytes → Prop where
  | mk {host portText path query queryText fragment fragmentText : Bytes} {port : Option Bytes}
      (hhost : ∀ c ∈ host, isHostChar c = true) (hport : PortSpelled port portText)
      (hpath : PathSpelled path) (hquery : MarkedSpelled 63 isQueryChar query queryText)
      (hfragment : MarkedSpelled 35 isFragmentChar fragment fragmentText) :
      Spelled ⟨host, port, path, query, fragment⟩
        (host ++ (portText ++ (path ++ (queryText ++ fragmentText))))

theorem PortSpelled.starts {port : Option Bytes} {text : Bytes} (h : PortSpelled port text) :
    Starts [58] text := by
  cases h with
  | absent => exact starts_nil _
  | digits => exact starts_cons 58 _

theorem PathSpelled.starts {path : Bytes} (h : PathSpelled path) : Starts [47] path := by
  obtain rfl | ⟨rest, rfl, -⟩ := h
  · exact starts_nil _
  · exact starts_cons 47 rest

theorem MarkedSpelled.starts {mark : UInt8} {allowed : UInt8 → Bool} {part text : Bytes}
    (h : MarkedSpelled mark allowed part text) : Starts [mark] text := by
  obtain ⟨-, rfl | ⟨-, rfl⟩⟩ := h
  · exact starts_cons mark part
  · exact starts_nil _

theorem markedSpelled_nil (mark : UInt8) (allowed : UInt8 → Bool) :
    MarkedSpelled mark allowed [] [] := ⟨forall_mem_nil _, Or.inr ⟨rfl, rfl⟩⟩

theorem matchPort_eq {text rest : Bytes} {port : Option Bytes} (h : matchPort text = some (port, rest)) :
    ∃ portText, PortSpelled port portText ∧ text = portText ++ rest := by
  unfold matchPort at h
  split at h
  · rename_i text
    split at h
    · cases h
    · rename_i hne
      obtain ⟨rfl, rfl⟩ := Prod.mk.inj (Option.some.inj h)
      refine ⟨58 :: text.takeWhile isDigit, .digits hne fun c hc => mem_takeWhile_imp hc, ?_⟩
      rw [cons_append, takeWhile_append_dropWhile]
  · obtain ⟨rfl, rfl⟩ := Prod.mk.inj (Option.some.inj h)
    exact ⟨[], .absent, rfl⟩

theorem matchPath_eq (text : Bytes) :
    PathSpelled (matchPath text).1 ∧ text = (matchPath text).1 ++ (matchPath text).2 := by
  unfold matchPath
  split
  · constructor
    · exact Or.inr ⟨_, rfl, fun c hc => mem_takeWhile_imp hc⟩
    · rw [cons_append, takeWhile_append_dropWhile]
  · exact ⟨Or.inl rfl, rfl⟩

theorem matchQuery_eq (text : Bytes) : ∃ queryText,
    MarkedSpelled 63 isQueryChar (matchQuery text).1 queryText ∧
      text = queryText ++ (matchQuery text).2 := by
  unfold matchQuery
  split
  · rename_i text
    refine ⟨63 :: text.takeWhile (· ≠ 35), ⟨fun c hc => mem_takeWhile_imp hc, Or.inl rfl⟩, ?_⟩
    rw [cons_append, takeWhile_append_dropWhile]
  · exact ⟨[], markedSpelled_nil 63 _, rfl⟩

theorem fragmentOf_eq {text fragment : Bytes} (h : fragmentOf text = some fragment) :
    MarkedSpelled 35 isFragmentChar fragment text := by
  unfold fragmentOf at h
  split at h
  · obtain rfl := Option.some.inj h
    exact markedSpelled_nil 35 _
  · split at h
    · rename_i hall
      obtain rfl := Option.some.inj h
      exact ⟨all_eq_true.mp hall, Or.inl rfl⟩
    · cases h
  · cases h

theorem spelled_of_match {text : Bytes} {m : HostMatch} (h : matchHostParts text = some m) :
    Spelled m text := by
  obtain ⟨⟨port, rest⟩, hport, h⟩ := bind_eq_some_iff.mp h
  have hparts : ((fragmentOf (matchQuery (matchPath rest).2).2).map fun fragment =>
      (⟨text.takeWhile isHostChar, port, (matchPath rest).1, (matchQuery (matchPath rest).2).1,
        fragment⟩ : HostMatch)) = some m := h
  obtain ⟨fragment, hfragment, rfl⟩ := map_eq_some_iff.mp hparts
  obtain ⟨portText, hport, hrest⟩ := matchPort_eq hport
  obtain ⟨hpath, hpathText⟩ := matchPath_eq rest
  obtain ⟨queryText, hquery, hqueryText⟩ := matchQuery_eq (matchPath rest).2
  have htext : text = text.takeWhile isHostChar ++
      (portText ++ ((matchPath rest).1 ++ (queryText ++ (matchQuery (matchPath rest).2).2))) := by
    rw [← hqueryText, ← hpathText, ← hrest, takeWhile_append_dropWhile]
  have hhost : ∀ c ∈ text.takeWhile isHostChar, isHostChar c = true := fun _ => mem_takeWhile_imp
  have hspelled := Spelled.mk hhost hport hpath hquery (fragmentOf_eq hfragment)
  rwa [← htext] at hspelled

theorem PortSpelled.matched {port : Option Bytes} {text rest : Bytes} (h : PortSpelled port text)
    (hrest : Starts [47, 63, 35] rest) : matchPort (text ++ rest) = some (port, rest) := by
  cases h with
  | absent =>
    cases rest with
    | nil => rfl
    | cons c rest =>
      have hc : c ≠ 58 := by
        rintro rfl
        exact absurd (hrest 58 rfl) (by decide)
      simp [matchPort, hc]
  | @digits digits hne hdigits =>
    obtain ⟨htake, hdrop⟩ := span_append hdigits (hrest.not (by decide))
    simp [matchPort, htake, hdrop, if_neg hne]

theorem PathSpelled.matched {path rest : Bytes} (h : PathSpelled path) (hrest : Starts [63, 35] rest) :
    matchPath (path ++ rest) = (path, rest) := by
  obtain rfl | ⟨path, rfl, hpath⟩ := h
  · cases rest with
    | nil => rfl
    | cons c rest =>
      have hc : c ≠ 47 := by
        rintro rfl
        exact absurd (hrest 47 rfl) (by decide)
      simp [matchPath, hc]
  · obtain ⟨htake, hdrop⟩ := span_append hpath (hrest.not (by decide))
    simp [matchPath, htake, hdrop]

theorem matchQuery_spelled {query text rest : Bytes} (h : MarkedSpelled 63 isQueryChar query text)
    (hrest : Starts [35] rest) : matchQuery (text ++ rest) = (query, rest) := by
  obtain ⟨hquery, rfl | ⟨rfl, rfl⟩⟩ := h
  · obtain ⟨htake, hdrop⟩ := span_append hquery (hrest.not (by decide))
    exact Prod.ext htake hdrop
  · cases rest with
    | nil => rfl
    | cons c rest =>
      have hc : c ≠ 63 := by
        rintro rfl
        exact absurd (hrest 63 rfl) (by decide)
      simp [matchQuery, hc]

theorem fragmentOf_spelled {fragment text : Bytes} (h : MarkedSpelled 35 isFragmentChar fragment text) :
    fragmentOf text = some fragment := by
  obtain ⟨hfragment, rfl | ⟨rfl, rfl⟩⟩ := h
  · exact if_pos (all_eq_true.mpr hfragment)
  · rfl

theorem Spelled.matched {m : HostMatch} {text : Bytes} (h : Spelled m text) :
    matchHostParts text = some m := by
  cases h with
  | mk hhost hport hpath hquery hfragment =>
    have hquery' := hquery.starts.append hfragment.starts
    have hpath' := hpath.starts.append hquery'
    obtain ⟨htake, hdrop⟩ := span_append hhost ((hport.starts.append hpath').not (by decide))
    simp [matchHostParts, htake, hdrop, hport.matched hpath', hpath.matched hquery', matchQuery_spelled hquery hfragment.starts, fragmentOf_spelled hfragment]

inductive UserSpelled : Bytes × Option Bytes → Bytes → Prop where
  | name {username : Bytes} : username ≠ [] → (∀ c ∈ username, isUserChar c = true) →
      UserSpelled (username, none) username
  | both {username password : Bytes} : username ≠ [] → (∀ c ∈ username, isUserChar c = true) →
      password ≠ [] → (∀ c ∈ password, c ≠ 64) →
      UserSpelled (username, some password) (username ++ 58 :: password)

theorem UserSpelled.ne_nil {info : Bytes × Option Bytes} {front : Bytes} (h : UserSpelled info front) :
    info.1 ≠ [] := by
  cases h with
  | name hne => exact hne
  | both hne => exact hne

theorem UserSpelled.head {info : Bytes × Option Bytes} {front rest tail : Bytes} {c : UInt8}
    (h : UserSpelled info front) (heq : c :: tail = front ++ rest) : isUserChar c = true := by
  cases h with
  | name hne huser =>
    cases front with
    | nil => exact absurd rfl hne
    | cons b front => exact (List.cons.inj heq).1 ▸ huser b mem_cons_self
  | @both username password hne huser =>
    cases username with
    | nil => exact absurd rfl hne
    | cons b username => exact (List.cons.inj heq).1 ▸ huser b mem_cons_self

theorem UserSpelled.at_not_mem {info : Bytes × Option Bytes} {front : Bytes}
    (h : UserSpelled info front) : 64 ∉ front := by
  have hname {username : Bytes} (huser : ∀ c ∈ username, isUserChar c = true) : 64 ∉ username :=
    fun hmem => absurd (huser 64 hmem) (by decide)
  cases h with
  | name _ huser => exact hname huser
  | both _ huser _ hpassword =>
    intro hmem
    obtain hmem | hmem := mem_append.mp hmem
    · exact hname huser hmem
    · obtain hcolon | hmem := mem_cons.mp hmem
      · exact absurd hcolon (by decide)
      · exact hpassword 64 hmem rfl

theorem matchUserInfo_iff {text rest : Bytes} {info : Bytes × Option Bytes} :
    matchUserInfo text = some (info, rest) ↔
      ∃ front, UserSpelled info front ∧ text = front ++ 64 :: rest := by
  constructor
  · intro h
    unfold matchUserInfo at h
    split at h
    · cases h
    · rename_i hne
      have hsplit := @takeWhile_append_dropWhile _ isUserChar text
      have huser : ∀ c ∈ text.takeWhile isUserChar, isUserChar c = true :=
        fun _ => mem_takeWhile_imp
      split at h
      · rename_i hdrop
        obtain ⟨rfl, rfl⟩ := Prod.mk.inj (Option.some.inj h)
        exact ⟨_, .name hne huser, by rw [← hdrop, hsplit]⟩
      · rename_i password hdrop
        split at h
        · cases h
        · rename_i hpassword
          split at h
          · rename_i hat
            obtain ⟨rfl, rfl⟩ := Prod.mk.inj (Option.some.inj h)
            refine ⟨_, .both hne huser hpassword ?_, ?_⟩
            · intro c hc
              have hother := mem_takeWhile_imp hc
              simpa using hother
            · rw [append_assoc, cons_append, ← hat, takeWhile_append_dropWhile, ← hdrop, hsplit]
          · cases h
      · cases h
  · rintro ⟨front, hfront, rfl⟩
    cases hfront with
    | name hne huser =>
      obtain ⟨htake, hdrop⟩ := span_append huser ((starts_cons 64 rest).not (by decide))
      simp [matchUserInfo, htake, hdrop, if_neg hne]
    | @both username password hne huser hpassword hat =>
      obtain ⟨htake, hdrop⟩ := span_append huser ((starts_cons 58 (password ++ 64 :: rest)).not (by decide))
      have hat' : ∀ c ∈ password, decide (c ≠ 64) = true := fun c hc => decide_eq_true (hat c hc)
      obtain ⟨htake', hdrop'⟩ := span_append hat' ((starts_cons 64 rest).not (by decide))
      rw [append_assoc, cons_append]
      simp only [matchUserInfo, htake, hdrop, htake', hdrop', if_neg hne, if_neg hpassword]

/-- The text begins with user information and a host part is behind it. -/
def ReadsUser (text : Bytes) : Prop :=
  ∃ info front m rest, UserSpelled info front ∧ Spelled m rest ∧ text = front ++ 64 :: rest

theorem matchWithUser_iff {text : Bytes} {info : Bytes × Option Bytes} {m : HostMatch} :
    matchWithUser text = some (info, m) ↔
      ∃ front rest, UserSpelled info front ∧ Spelled m rest ∧ text = front ++ 64 :: rest := by
  constructor
  · intro h
    obtain ⟨⟨info', rest⟩, huser, h⟩ := bind_eq_some_iff.mp h
    obtain ⟨m', hparts, heq⟩ := map_eq_some_iff.mp h
    obtain ⟨rfl, rfl⟩ := Prod.mk.inj heq
    obtain ⟨front, hfront, htext⟩ := matchUserInfo_iff.mp huser
    exact ⟨front, rest, hfront, spelled_of_match hparts, htext⟩
  · rintro ⟨front, rest, hfront, hrest, htext⟩
    have huser := matchUserInfo_iff.mpr ⟨front, hfront, htext⟩
    simp [matchWithUser, huser, hrest.matched]

theorem readsUser_iff {text : Bytes} : ReadsUser text ↔ (matchWithUser text).isSome = true := by
  constructor
  · rintro ⟨info, front, m, rest, h⟩
    rw [matchWithUser_iff.mpr ⟨front, rest, h⟩]
    rfl
  · intro h
    obtain ⟨⟨info, m⟩, h⟩ := isSome_iff_exists.mp h
    obtain ⟨front, rest, h⟩ := matchWithUser_iff.mp h
    exact ⟨info, front, m, rest, h⟩

instance (text : Bytes) : Decidable (ReadsUser text) := decidable_of_iff _ readsUser_iff.symm

theorem isPathChar_of_host {c : UInt8} (h : isHostChar c = true) : isPathChar c = true := by
  simp only [isHostChar, isPathChar, ascii, map_cons, mem_cons, not_or, decide_eq_true_eq] at h ⊢
  exact ⟨h.2.2.1, h.2.2.2⟩

theorem PortSpelled.pathChars {port : Option Bytes} {text : Bytes} (h : PortSpelled port text) :
    ∀ c ∈ text, isPathChar c = true := by
  cases h with
  | absent => exact forall_mem_nil _
  | @digits digits _ hdigits =>
    refine forall_mem_cons.mpr ⟨by decide, fun c hc => ?_⟩
    have hdigit := hdigits c hc
    by_contra hother
    simp only [isPathChar, decide_eq_true_eq, not_not] at hother
    obtain rfl | rfl := mem_pair.mp hother
    · exact absurd hdigit (by decide)
    · exact absurd hdigit (by decide)

theorem PathSpelled.pathChars {path : Bytes} (h : PathSpelled path) :
    ∀ c ∈ path, isPathChar c = true := by
  obtain rfl | ⟨rest, rfl, hrest⟩ := h
  · exact forall_mem_nil _
  · exact forall_mem_cons.mpr ⟨by decide, hrest⟩

/-- An empty fragment may stand behind a text without one. -/
theorem Spelled.hash {m : HostMatch} {text : Bytes} (h : Spelled m text) (hhash : 35 ∉ text) :
    Spelled m (text ++ [35]) := by
  cases h with
  | mk hhost hport hpath hquery hfragment =>
    obtain ⟨-, rfl | ⟨rfl, rfl⟩⟩ := hfragment
    · exact absurd (by simp) hhash
    · have hempty : MarkedSpelled 35 isFragmentChar [] [35] := ⟨forall_mem_nil _, Or.inl rfl⟩
      have hspelled := Spelled.mk hhost hport hpath hquery hempty
      simpa using hspelled

/-- An empty query may stand where none is. -/
theorem Spelled.question {m : HostMatch} {front rest : Bytes} (h : Spelled m (front ++ rest))
    (hfront : ∀ c ∈ front, isPathChar c = true) (hrest : Starts [35] rest) :
    Spelled m (front ++ 63 :: rest) := by
  generalize htext : front ++ rest = text at h
  cases h with
  | @mk host portText path query queryText fragment fragmentText port hhost hport hpath hquery hfragment =>
    have hbefore : ∀ c ∈ host ++ (portText ++ path), isPathChar c = true := by
      intro c hc
      obtain hc | hc := mem_append.mp hc
      · exact isPathChar_of_host (hhost c hc)
      · obtain hc | hc := mem_append.mp hc
        · exact hport.pathChars c hc
        · exact hpath.pathChars c hc
    have hmarks := hquery.starts.append hfragment.starts
    obtain ⟨htake, hdrop⟩ := span_append hbefore (hmarks.not (p := isPathChar) (by decide))
    obtain ⟨htake', hdrop'⟩ := span_append hfront (hrest.not (p := isPathChar) (by decide))
    rw [append_assoc, append_assoc, ← htext] at htake hdrop
    obtain rfl := htake'.symm.trans htake
    obtain rfl := hdrop'.symm.trans hdrop
    obtain ⟨-, rfl | ⟨rfl, rfl⟩⟩ := hquery
    · exact absurd (hrest 63 rfl) (by decide)
    · have hempty : MarkedSpelled 63 isQueryChar [] [63] := ⟨forall_mem_nil _, Or.inl rfl⟩
      have hspelled := Spelled.mk hhost hport hpath hempty hfragment
      simpa using hspelled

theorem ReadsUser.hash {text : Bytes} (h : ReadsUser text) (hhash : 35 ∉ text) :
    ReadsUser (text ++ [35]) := by
  obtain ⟨info, front, m, rest, hfront, hrest, rfl⟩ := h
  refine ⟨info, front, m, rest ++ [35], hfront, hrest.hash ?_, by simp⟩
  exact fun hmem => hhash (by simp [hmem])

/-- A question mark in user information leaves user information. -/
theorem UserSpelled.question {info : Bytes × Option Bytes} {front rest : Bytes}
    (h : UserSpelled info (front ++ rest)) : ∃ info', UserSpelled info' (front ++ 63 :: rest) := by
  have hmore {front rest : Bytes} (h : ∀ c ∈ front ++ rest, isUserChar c = true) :
      ∀ c ∈ front ++ 63 :: rest, isUserChar c = true := by
    intro c hc
    obtain hc | hc := mem_append.mp hc
    · exact h c (mem_append_left rest hc)
    · obtain rfl | hc := mem_cons.mp hc
      · decide
      · exact h c (mem_append_right front hc)
  have hne (front rest : Bytes) : front ++ 63 :: rest ≠ [] :=
    append_ne_nil_of_right_ne_nil front (cons_ne_nil 63 rest)
  generalize htext : front ++ rest = text at h
  cases h with
  | name _ huser =>
    subst htext
    exact ⟨_, .name (hne front rest) (hmore huser)⟩
  | @both username password _ huser hpassword hat =>
    obtain ⟨more, rfl, rfl⟩ | ⟨more, rfl, hmoreText⟩ := append_eq_append_iff.mp htext
    · rw [← cons_append, ← append_assoc]
      exact ⟨_, .both (hne front more) (hmore huser) hpassword hat⟩
    · cases more with
      | nil =>
        subst hmoreText
        rw [append_nil, ← singleton_append, ← append_assoc]
        exact ⟨_, .both (hne username []) (hmore (by simpa using huser)) hpassword hat⟩
      | cons c more =>
        obtain ⟨rfl, rfl⟩ := List.cons.inj hmoreText
        rw [append_assoc]
        refine ⟨_, .both (by assumption) huser (hne more rest) ?_⟩
        intro c hc
        obtain hc | hc := mem_append.mp hc
        · exact hat c (mem_append_left rest hc)
        · obtain rfl | hc := mem_cons.mp hc
          · decide
          · exact hat c (mem_append_right more hc)

theorem ReadsUser.question {front rest : Bytes} (h : ReadsUser (front ++ rest))
    (hfront : ∀ c ∈ front, isPathChar c = true) (hrest : Starts [35] rest) :
    ReadsUser (front ++ 63 :: rest) := by
  obtain ⟨info, user, m, behind, huser, hbehind, htext⟩ := h
  obtain ⟨more, rfl, rfl⟩ | ⟨more, rfl, hmore⟩ := append_eq_append_iff.mp htext
  · obtain ⟨info', huser'⟩ := huser.question
    exact ⟨info', _, m, behind, huser', hbehind, by simp⟩
  · cases more with
    | nil =>
      subst hmore
      exact absurd (hrest 64 rfl) (by decide)
    | cons c more =>
      obtain ⟨rfl, rfl⟩ := List.cons.inj hmore
      have hmoreChars : ∀ c ∈ more, isPathChar c = true := fun c hc => hfront c (by simp [hc])
      exact ⟨info, user, m, _, huser, hbehind.question hmoreChars hrest, by simp⟩

theorem split_at {front tail user rest : Bytes} (hfront : 64 ∉ front)
    (h : front ++ tail = user ++ 64 :: rest) : ∃ more, user = front ++ more ∧ tail = more ++ 64 :: rest := by
  obtain hsplit | ⟨more, rfl, hmore⟩ := append_eq_append_iff.mp h
  · exact hsplit
  · cases more with
    | nil => exact ⟨[], by simp, hmore.symm⟩
    | cons c more =>
      obtain ⟨rfl⟩ := List.cons.inj hmore
      exact absurd (by simp) hfront

theorem not_readsUser {c : UInt8} {text : Bytes} (hc : isUserChar c = false) :
    ¬ ReadsUser (c :: text) := by
  rintro ⟨info, front, m, rest, hfront, -, htext⟩
  rw [hfront.head htext] at hc
  cases hc

/-- Behind a host any port will do for a user name and password. -/
theorem ReadsUser.port {host portText tail : Bytes} {port : Option Bytes} {digits : Bytes}
    (h : ReadsUser (host ++ (portText ++ tail))) (hport : PortSpelled port portText) (hne : host ≠ [])
    (hhost : ∀ c ∈ host, isUserChar c = true) (hdigits : PortSpelled (some digits) (58 :: digits)) :
    ReadsUser (host ++ (58 :: digits ++ tail)) := by
  obtain ⟨info, user, m, rest, huser, hrest, htext⟩ := h
  have hat : 64 ∉ host ++ portText := by
    intro hmem
    obtain hmem | hmem := mem_append.mp hmem
    · exact absurd (hhost 64 hmem) (by decide)
    · cases hport with
      | absent => cases hmem
      | digits _ hall =>
        obtain hcolon | hmem := mem_cons.mp hmem
        · exact absurd hcolon (by decide)
        · exact absurd (hall 64 hmem) (by decide)
  rw [← append_assoc] at htext
  obtain ⟨more, rfl, rfl⟩ := split_at hat htext
  cases hdigits with
  | digits hsome hall =>
    refine ⟨_, _, m, rest, @UserSpelled.both host (digits ++ more) hne hhost ?_ ?_, hrest, ?_⟩
    · exact append_ne_nil_of_left_ne_nil hsome more
    · rintro c hc rfl
      obtain hc | hc := mem_append.mp hc
      · exact absurd (hall 64 hc) (by decide)
      · exact huser.at_not_mem (mem_append_right _ hc)
    · simp

theorem isUserChar_of_host {c : UInt8} (h : isHostChar c = true) (hc : c ≠ 64) :
    isUserChar c = true := by
  simp only [isHostChar, isUserChar, ascii, map_cons, mem_cons, not_or, decide_eq_true_eq] at h ⊢
  exact ⟨h.1, hc, not_mem_nil⟩

/-- Another port, or none, makes no user information where there was none; only without a host a port
has to stay one. -/
theorem ReadsUser.otherPort {host portText portText' tail : Bytes} {port port' : Option Bytes}
    (h : ReadsUser (host ++ (portText' ++ tail))) (hport : PortSpelled port portText)
    (hport' : PortSpelled port' portText') (hhost : ∀ c ∈ host, isHostChar c = true)
    (hspelled : ∀ host' : Bytes, (∀ c ∈ host', isHostChar c = true) →
      ∃ m, Spelled m (host' ++ (portText ++ tail)))
    (hadded : port = none → port' = none) (hdropped : host = [] → port' = none → port = none) :
    ReadsUser (host ++ (portText ++ tail)) := by
  have hsplit := @takeWhile_append_dropWhile _ isUserChar host
  have huser : ∀ c ∈ host.takeWhile isUserChar, isUserChar c = true := fun _ => mem_takeWhile_imp
  cases hdrop : host.dropWhile isUserChar with
  | cons c host' =>
    rw [hdrop] at hsplit
    have hin : c ∈ host := hsplit ▸ mem_append_right _ mem_cons_self
    have hnot : isUserChar c = false := by
      have hhead := @head_dropWhile_not _ isUserChar host
        (by rw [hdrop]; exact cons_ne_nil c host')
      simpa [hdrop] using hhead
    obtain rfl : c = 64 := by
      by_contra hother
      rw [isUserChar_of_host (hhost c hin) hother] at hnot
      cases hnot
    by_cases hempty : host.takeWhile isUserChar = []
    · rw [hempty] at hsplit
      rw [← hsplit] at h
      exact absurd h (not_readsUser hnot)
    · obtain ⟨m, hm⟩ := hspelled host' fun c hc =>
        hhost c (hsplit ▸ mem_append_right _ (mem_cons_of_mem 64 hc))
      refine ⟨_, _, m, _, .name hempty huser, hm, ?_⟩
      nth_rewrite 1 [← hsplit]
      rw [append_assoc, cons_append]
  | nil =>
    rw [hdrop, append_nil] at hsplit
    rw [hsplit] at huser
    cases hport with
    | absent =>
      rw [hadded rfl] at hport'
      cases hport'
      exact h
    | @digits digits hsome hall =>
      cases host with
      | nil =>
        cases hport' with
        | absent => exact absurd (hdropped rfl rfl) (some_ne_none digits)
        | digits => exact absurd h (not_readsUser (by decide))
      | cons c host => exact h.port hport' (cons_ne_nil c host) huser (.digits hsome hall)

end CompleteMatch

end JobNet
