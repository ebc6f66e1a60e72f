import OddBuilder.Net.QueryItems
import OddBuilder.Net.RequestSafety
import OddBuilder.Net.UrlMatch

/-!
# URLs as text

A URL with its user information and fragment, read from a text and written again.
The user name is kept as it stands in the text but written with escapes, and the
port is narrowed, so not every text survives.
-/

namespace JobNet

open JobUrl List Option

structure CompleteUrl extends JobUrl where
  username : Bytes
  password : Option Bytes
  fragment : Bytes
  deriving DecidableEq

namespace CompleteUrl

def cleared : CompleteUrl := ⟨JobUrl.cleared, [], none, []⟩

def parse (text : Bytes) : CompleteUrl :=
  match CompleteMatch.kUrlRegexGroups text with
  | none => cleared
  | some m =>
    let scheme := schemeFromString m.scheme
    match portValue m.port with
    | none =>
      { cleared with scheme := scheme, username := m.username, password := m.password, host := m.host }
    | some port =>
      { scheme := scheme
        username := m.username
        password := m.password
        host := m.host
        port := port
        path := m.path
        query := m.query
        fragment := m.fragment
        valid := scheme ≠ .Unknown && (m.host ≠ [] || scheme = .File || scheme = .Unix) }

def schemeToString : Scheme → Bytes
  | .File => ascii "file".toList
  | .Http => ascii "http".toList
  | .Https => ascii "https".toList
  | .Tcp => ascii "tcp".toList
  | .Udp => ascii "udp".toList
  | .Unix => ascii "unix".toList
  | .Git => ascii "git".toList
  | .GitSm => ascii "gitsm".toList
  | .Svn => ascii "svn".toList
  | .Ssh => ascii "ssh".toList
  | .Serial => ascii "serial".toList
  | .Unknown => ascii "unknown".toList

def formatStripTrailingSlash : UInt8 := 2

def formatIncludePassword : UInt8 := 4

/-- A part that is written behind its mark unless it is empty. -/
def markedText (mark : UInt8) (part : Bytes) : Bytes := if part = [] then [] else mark :: part

def portText (port : BitVec 16) : Bytes :=
  if port = 0 then [] else 58 :: ascii (Nat.toDigits 10 port.toNat)

def tailText (path query fragment : Bytes) : Bytes :=
  path ++ (markedText 63 query ++ markedText 35 fragment)

/-- The password in the text of a URL: masked, or in base 64. -/
def passwordText (toBase64 : Option (Bytes → Bytes)) : Option Bytes → Bytes
  | none => []
  | some password =>
    match toBase64 with
    | some toBase64 => 58 :: toBase64 password
    | none => ascii ":********".toList

def userText (toBase64 : Option (Bytes → Bytes)) (options : UInt8) (url : CompleteUrl) : Bytes :=
  if url.username = [] then []
  else
    encodeComponent url.username ++
      ((if options &&& formatIncludePassword ≠ 0 then passwordText toBase64 url.password else []) ++ [64])

/-- The base 64 of the password store is there if the URL asks for it. -/
def toString (toBase64 : Option (Bytes → Bytes)) (options : UInt8) (url : CompleteUrl) : Bytes :=
  let ret := (if url.scheme = .Unknown then [] else schemeToString url.scheme ++ ascii "://".toList) ++
    (userText toBase64 options url ++
      (url.host ++ (portText url.port ++ tailText url.path url.query url.fragment)))
  if options &&& formatStripTrailingSlash ≠ 0 then (ret.reverse.dropWhile (· = 47)).reverse else ret

/-- `operator==`: the password and the validity are not compared. -/
def equals (url other : CompleteUrl) : Bool :=
  url.scheme = other.scheme && url.host = other.host && url.port = other.port &&
    url.path = other.path && url.query = other.query && url.fragment = other.fragment &&
    url.username = other.username

end CompleteUrl

namespace CompleteMatch

/-- The parts that `toString` writes from the host on. -/
def normal (m : HostMatch) (port : BitVec 16) : HostMatch :=
  { m with port := if port = 0 then none else some (ascii (Nat.toDigits 10 port.toNat)) }

theorem portSpelled_portText (port : BitVec 16) :
    PortSpelled (if port = 0 then none else some (ascii (Nat.toDigits 10 port.toNat)))
      (CompleteUrl.portText port) := by
  unfold CompleteUrl.portText
  split
  · exact .absent
  · refine .digits ?_ isDigit_ascii
    rw [ascii, ne_eq, map_eq_nil_iff]
    exact Nat.toDigits_ne_nil

theorem markedText_nil (mark : UInt8) : CompleteUrl.markedText mark [] = [] := rfl

theorem markedText_of_ne {part : Bytes} (h : part ≠ []) (mark : UInt8) :
    CompleteUrl.markedText mark part = mark :: part := if_neg h

theorem markedSpelled_markedText {mark : UInt8} {allowed : UInt8 → Bool} {part text : Bytes}
    (h : MarkedSpelled mark allowed part text) :
    MarkedSpelled mark allowed part (CompleteUrl.markedText mark part) := by
  refine ⟨h.1, ?_⟩
  unfold CompleteUrl.markedText
  split
  · rename_i hempty
    exact Or.inr ⟨hempty, rfl⟩
  · exact Or.inl rfl

/-- The text of the parts that `toString` writes. -/
def normalText (m : HostMatch) (port : BitVec 16) : Bytes :=
  m.host ++ (CompleteUrl.portText port ++ CompleteUrl.tailText m.path m.query m.fragment)

theorem spelled_normal {m : HostMatch} {text : Bytes} (h : Spelled m text) (port : BitVec 16) :
    Spelled (normal m port) (normalText m port) := by
  cases h with
  | mk hhost hport hpath hquery hfragment =>
    exact .mk hhost (portSpelled_portText port) hpath (markedSpelled_markedText hquery)
      (markedSpelled_markedText hfragment)

/-- Leaving out the marks of empty parts makes no user information where there was none. -/
theorem ReadsUser.tail {front query queryText fragment fragmentText : Bytes}
    (h : ReadsUser (front ++ (CompleteUrl.markedText 63 query ++ CompleteUrl.markedText 35 fragment)))
    (hfront : ∀ c ∈ front, isPathChar c = true) (hquery : MarkedSpelled 63 isQueryChar query queryText)
    (hfragment : MarkedSpelled 35 isFragmentChar fragment fragmentText) :
    ReadsUser (front ++ (queryText ++ fragmentText)) := by
  have hhash : 35 ∉ front ++ CompleteUrl.markedText 63 query := by
    intro hmem
    obtain hmem | hmem := mem_append.mp hmem
    · exact absurd (hfront 35 hmem) (by decide)
    · by_cases hempty : query = []
      · rw [hempty] at hmem
        cases hmem
      · rw [markedText_of_ne hempty] at hmem
        obtain hmark | hmem := mem_cons.mp hmem
        · exact absurd hmark (by decide)
        · exact absurd (hquery.1 35 hmem) (by decide)
  have hlast : ReadsUser (front ++ (CompleteUrl.markedText 63 query ++ fragmentText)) := by
    obtain ⟨-, rfl | ⟨rfl, rfl⟩⟩ := hfragment
    · by_cases hempty : fragment = []
      · subst hempty
        rw [markedText_nil, append_nil] at h
        rw [← append_assoc]
        exact h.hash hhash
      · rwa [markedText_of_ne hempty] at h
    · exact h
  obtain ⟨-, rfl | ⟨rfl, rfl⟩⟩ := hquery
  · by_cases hempty : query = []
    · subst hempty
      exact hlast.question hfront hfragment.starts
    · rwa [markedText_of_ne hempty] at hlast
  · exact hlast

/-- The text that `toString` writes has user information only where the text that was read has, unless
a port without a host is left out. -/
theorem ReadsUser.ofNormal {m : HostMatch} {text : Bytes} {port : BitVec 16}
    (h : ReadsUser (normalText m port)) (hspelled : Spelled m text)
    (hadded : m.port = none → port = 0) (hdropped : m.host = [] → port = 0 → m.port = none) :
    ReadsUser text := by
  cases hspelled with
  | @mk host portText path query queryText fragment fragmentText given hhost hport hpath hquery hfragment =>
    have hport' := portSpelled_portText port
    have htail : ReadsUser (host ++ (CompleteUrl.portText port ++ (path ++ (queryText ++ fragmentText)))) := by
      have hfront : ∀ c ∈ host ++ (CompleteUrl.portText port ++ path), isPathChar c = true := by
        intro c hc
        obtain hc | hc := mem_append.mp hc
        · exact isPathChar_of_host (hhost c hc)
        · obtain hc | hc := mem_append.mp hc
          · exact hport'.pathChars c hc
          · exact hpath.pathChars c hc
      have hmarks := @ReadsUser.tail (host ++ (CompleteUrl.portText port ++ path)) query queryText
        fragment fragmentText
      simp only [append_assoc] at hmarks
      exact hmarks h hfront hquery hfragment
    refine htail.otherPort hport hport' hhost ?_ ?_ ?_
    · exact fun host' hhost' => ⟨_, .mk hhost' hport hpath hquery hfragment⟩
    · exact fun hnone => if_pos (hadded hnone)
    · intro hempty hnone
      apply hdropped hempty
      by_contra hport
      rw [if_neg hport] at hnone
      cases hnone

theorem digitsFrom_append (base value : Nat) (front rest : Bytes) :
    digitsFrom base value (front ++ rest) =
      (digitsFrom base value front).bind fun value => digitsFrom base value rest := by
  induction front generalizing value with
  | nil => rfl
  | cons c front ih =>
    simp only [cons_append, digitsFrom]
    cases digitValue c with
    | none => rfl
    | some d =>
      simp only
      split
      · exact ih _
      · rfl

theorem digitsFrom_toDigits (n : Nat) : digitsFrom 10 0 (ascii (Nat.toDigits 10 n)) = some n := by
  have hdigit : ∀ d < 10, digitValue (UInt8.ofNat (Nat.digitChar d).toNat) = some d := by decide
  induction n using Nat.strongRecOn with
  | ind n ih =>
    rw [Nat.toDigits_eq_if (by decide)]
    split
    · rename_i hn
      simp [ascii, digitsFrom, hdigit n hn, if_pos hn]
    · have hmod : n % 10 < 10 := Nat.mod_lt n (by decide)
      have hprevious : digitsFrom 10 0 ((Nat.toDigits 10 (n / 10)).map fun c => UInt8.ofNat c.toNat) =
          some (n / 10) := ih (n / 10) (by omega)
      rw [ascii, map_append, digitsFrom_append, hprevious]
      simp [digitsFrom, hdigit _ hmod, if_pos hmod, Nat.div_add_mod']

theorem portValue_normal (port : BitVec 16) :
    portValue (if port = 0 then none else some (ascii (Nat.toDigits 10 port.toNat))) = some port := by
  split
  · rename_i hzero
    exact congrArg some hzero.symm
  · have hne : ascii (Nat.toDigits 10 port.toNat) ≠ [] := by
      rw [ascii, ne_eq, map_eq_nil_iff]
      exact Nat.toDigits_ne_nil
    have hsmall : port.toNat ≤ 2 ^ 31 - 1 := by
      omega
    rw [portValue, fromChars, if_neg hne, digitsFrom_toDigits, filter_some,
      if_pos (decide_eq_true hsmall), map_some, BitVec.ofNat_toNat, BitVec.setWidth_eq]

theorem schemeFromString_schemeToString (scheme : Scheme) :
    schemeFromString (CompleteUrl.schemeToString scheme) = scheme := by
  cases scheme <;> decide

theorem matchScheme_schemeToString (scheme : Scheme) (rest : Bytes) :
    matchScheme (CompleteUrl.schemeToString scheme ++ (ascii "://".toList ++ rest)) =
      some (CompleteUrl.schemeToString scheme, rest) := by
  have hchars : ∀ c ∈ CompleteUrl.schemeToString scheme, isSchemeChar c = true :=
    all_eq_true.mp (by cases scheme <;> decide)
  have hhead : (CompleteUrl.schemeToString scheme ++ (ascii "://".toList ++ rest)).head?.any isAlpha =
      true := by
    cases scheme <;> rfl
  have hmark : ascii "://".toList ++ rest = 58 :: 47 :: 47 :: rest := rfl
  obtain ⟨htake, hdrop⟩ := span_append hchars ((starts_cons 58 (47 :: 47 :: rest)).not (by decide))
  rw [hmark] at hhead ⊢
  simp only [matchScheme, htake, hdrop, if_pos hhead]

set_option maxRecDepth 4096 in
theorem userChars_encodeComponent (input : Bytes) : ∀ c ∈ encodeComponent input, isUserChar c = true := by
  have hall := RequestMessage.forall_byte (p := fun c => (encodedComponentByte c).all isUserChar) (by decide)
  intro c hc
  obtain ⟨b, -, hb⟩ := mem_flatMap.mp hc
  exact all_eq_true.mp (hall b) c hb

theorem length_encodedComponentByte (c : UInt8) :
    (encodedComponentByte c).length = if isPlain c then 1 else 3 := by
  unfold encodedComponentByte
  split <;> rfl

theorem length_le_encodeComponent (input : Bytes) : input.length ≤ (encodeComponent input).length := by
  induction input with
  | nil => exact Nat.le_refl 0
  | cons c input ih =>
    have hone : 1 ≤ (encodedComponentByte c).length := by
      rw [length_encodedComponentByte]
      split <;> decide
    rw [encodeComponent, flatMap_cons, length_append, length_cons, ← encodeComponent]
    omega

theorem encodeComponent_eq_nil {input : Bytes} : encodeComponent input = [] ↔ input = [] := by
  constructor
  · intro h
    have hle := length_le_encodeComponent input
    rw [h] at hle
    exact length_eq_zero_iff.mp (Nat.le_zero.mp hle)
  · rintro rfl
    rfl

/-- A text is its own encoding if there is nothing to escape. -/
theorem encodeComponent_eq_self {input : Bytes} :
    encodeComponent input = input ↔ ∀ c ∈ input, isPlain c = true := by
  induction input with
  | nil => exact ⟨fun _ => forall_mem_nil _, fun _ => rfl⟩
  | cons c input ih =>
    rw [encodeComponent, flatMap_cons, ← encodeComponent, forall_mem_cons, ← ih]
    by_cases hc : isPlain c = true
    · rw [encodedComponentByte, if_pos hc, singleton_append, List.cons.injEq]
      exact ⟨fun h => ⟨hc, h.2⟩, fun h => ⟨rfl, h.2⟩⟩
    · constructor
      · intro h
        have hlength := congrArg List.length h
        have hle := length_le_encodeComponent input
        rw [length_append, length_encodedComponentByte, if_neg hc, length_cons] at hlength
        omega
      · exact fun h => absurd h.1 hc

end CompleteMatch

namespace CompleteUrl

open CompleteMatch

variable {text : Bytes} {m : CompleteMatch} {port : BitVec 16}

theorem parse_eq (h : kUrlRegexGroups text = some m) (hport : portValue m.port = some port) :
    parse text =
      { scheme := schemeFromString m.scheme
        username := m.username
        password := m.password
        host := m.host
        port := port
        path := m.path
        query := m.query
        fragment := m.fragment
        valid := schemeFromString m.scheme ≠ .Unknown &&
          (m.host ≠ [] || schemeFromString m.scheme = .File || schemeFromString m.scheme = .Unix) } := by
  simp [parse, h, hport]

theorem valid_iff (h : kUrlRegexGroups text = some m) (hport : portValue m.port = some port) :
    (parse text).valid = true ↔ schemeFromString m.scheme ≠ .Unknown ∧
      ((m.host ≠ [] ∨ schemeFromString m.scheme = .File) ∨ schemeFromString m.scheme = .Unix) := by
  rw [parse_eq h hport]
  simp

theorem parse_username (h : kUrlRegexGroups text = some m) :
    (parse text).username = m.username := by
  simp only [parse, h]
  cases portValue m.port <;> rfl

theorem portValue_of_valid (h : kUrlRegexGroups text = some m)
    (hvalid : (parse text).valid = true) : ∃ port, portValue m.port = some port := by
  simp only [parse, h] at hvalid
  cases hport : portValue m.port with
  | none =>
    rw [hport] at hvalid
    cases hvalid
  | some port => exact ⟨port, rfl⟩

/-- The port is the number that is written, cut to 16 bits. -/
theorem portValue_digits {digits : Bytes} (h : portValue (some digits) = some port) :
    ∃ n, decimal digits = some n ∧ port = BitVec.ofNat 16 n := by
  obtain ⟨n, hn, rfl⟩ := map_eq_some_iff.mp h
  exact ⟨n, fromChars_decimal hn, rfl⟩

theorem kUrlRegexGroups_eq_some (h : kUrlRegexGroups text = some m) :
    ∃ rest, matchAuthority rest = some ((m.username, m.password), m.toHostMatch) := by
  obtain ⟨⟨scheme, rest⟩, -, h⟩ := bind_eq_some_iff.mp h
  obtain ⟨⟨info⟩, hauthority, rfl⟩ := map_eq_some_iff.mp h
  exact ⟨rest, hauthority⟩

theorem spelled_of_authority {info : Bytes × Option Bytes} {parts : HostMatch}
    (h : matchAuthority text = some (info, parts)) :
    (∃ rest, Spelled parts rest) ∧ (info.1 = [] → Spelled parts text ∧ ¬ ReadsUser text) := by
  obtain hwith | ⟨hwithout, hparts⟩ := or_eq_some_iff.mp h
  · obtain ⟨front, rest, hfront, hrest, -⟩ := matchWithUser_iff.mp hwith
    exact ⟨⟨rest, hrest⟩, fun hempty => absurd hempty hfront.ne_nil⟩
  · obtain ⟨parts', hmatch, heq⟩ := map_eq_some_iff.mp hparts
    obtain ⟨-, rfl⟩ := Prod.mk.inj heq
    have hspelled := spelled_of_match hmatch
    refine ⟨⟨text, hspelled⟩, fun _ => ⟨hspelled, fun hreads => ?_⟩⟩
    rw [readsUser_iff, hwithout] at hreads
    cases hreads

variable (toBase64 : Option (Bytes → Bytes))

/-- What `toString` writes behind the scheme. -/
def authorityText (m : CompleteMatch) (port : BitVec 16) : Bytes :=
  (if m.username = [] then [] else encodeComponent m.username ++ [64]) ++ normalText m.toHostMatch port

/-- What is read back from a URL that was read, given what is read behind the scheme. -/
theorem kUrlRegexGroups_toString (h : kUrlRegexGroups text = some m)
    (hport : portValue m.port = some port) (hvalid : (parse text).valid = true) :
    kUrlRegexGroups ((parse text).toString toBase64 0) =
      (matchAuthority (authorityText m port)).map fun found =>
        ⟨found.2, schemeToString (parse text).scheme, found.1.1, found.1.2⟩ := by
  have hscheme : (parse text).scheme ≠ .Unknown := by
    intro hunknown
    rw [parse_eq h hport] at hunknown
    exact ((valid_iff h hport).mp hvalid).1 hunknown
  have htext : (parse text).toString toBase64 0 =
      schemeToString (parse text).scheme ++ (ascii "://".toList ++ authorityText m port) := by
    have huser : userText toBase64 0 (parse text) =
        if m.username = [] then [] else encodeComponent m.username ++ [64] := by
      rw [userText, parse_username h]
      rfl
    rw [toString, if_neg hscheme, parse_eq h hport, append_assoc]
    rfl
  rw [htext, kUrlRegexGroups, matchScheme_schemeToString, bind_some]

/-- The URL that is read back, but for the scheme. -/
theorem matchAuthority_normal (h : kUrlRegexGroups text = some m)
    (huser : m.username = [] → ¬ ReadsUser (normalText m.toHostMatch port)) :
    matchAuthority (authorityText m port) =
      some ((encodeComponent m.username, none), normal m.toHostMatch port) := by
  obtain ⟨rest, hauthority⟩ := kUrlRegexGroups_eq_some h
  obtain ⟨⟨_, hspelled⟩⟩ := spelled_of_authority hauthority
  have hnormal := spelled_normal hspelled port
  by_cases hempty : m.username = []
  · have hwithout : matchWithUser (normalText m.toHostMatch port) = none := by
      rw [← not_isSome_iff_eq_none, ← readsUser_iff]
      exact huser hempty
    rw [authorityText, if_pos hempty, nil_append, matchAuthority, hwithout, hnormal.matched, hempty]
    rfl
  · have hwith : matchWithUser (authorityText m port) =
        some ((encodeComponent m.username, none), normal m.toHostMatch port) := by
      refine matchWithUser_iff.mpr ⟨_, _, .name ?_ (userChars_encodeComponent m.username), hnormal, ?_⟩
      · rwa [ne_eq, encodeComponent_eq_nil]
      · rw [authorityText, if_neg hempty, append_assoc, singleton_append]
    rw [matchAuthority, hwith, some_or]

/-- What `toString` writes of the URL is read, and gives an equal URL with the port that is written in
the text. -/
def RoundTrips (text : Bytes) : Prop :=
  (parse ((parse text).toString toBase64 0)).valid = true ∧
    (parse ((parse text).toString toBase64 0)).equals (parse text) = true ∧
    ∀ m digits, kUrlRegexGroups text = some m → m.port = some digits →
      decimal digits = some (parse text).port.toNat

/-- No escapes in the user name, a port of 16 bits, and no `@` that could end user information once a
port of zero is left out in front of it. -/
structure Restorable (m : CompleteMatch) : Prop where
  username : ∀ c ∈ m.username, isPlain c = true
  port : ∀ digits, m.port = some digits → ∃ n < 2 ^ 16, decimal digits = some n
  noUser : m.username = [] → m.host = [] → (∃ digits, m.port = some digits ∧ decimal digits = some 0) →
    ¬ ReadsUser (tailText m.path m.query m.fragment)

theorem Restorable.not_readsUser (hm : Restorable m) (h : kUrlRegexGroups text = some m)
    (hport : portValue m.port = some port) (hempty : m.username = []) :
    ¬ ReadsUser (normalText m.toHostMatch port) := by
  obtain ⟨rest, hauthority⟩ := kUrlRegexGroups_eq_some h
  obtain ⟨hspelled, hnot⟩ := (spelled_of_authority hauthority).2 hempty
  intro hreads
  by_cases hleft : m.host = [] ∧ port = 0 ∧ m.port ≠ none
  · obtain ⟨hhost, rfl, hwritten⟩ := hleft
    obtain ⟨digits, hdigits⟩ := ne_none_iff_exists'.mp hwritten
    rw [hdigits] at hport
    obtain ⟨n, hn, hzero⟩ := portValue_digits hport
    obtain ⟨n', hlt, hn'⟩ := hm.port digits hdigits
    obtain rfl := Option.some.inj (hn.symm.trans hn')
    obtain rfl : n = 0 := by
      have hmod := congrArg BitVec.toNat hzero
      rw [BitVec.toNat_ofNat, Nat.mod_eq_of_lt hlt] at hmod
      exact hmod.symm
    refine hm.noUser hempty hhost ⟨digits, hdigits, hn⟩ ?_
    rw [normalText, hhost] at hreads
    exact hreads
  · refine hnot (hreads.ofNormal hspelled ?_ ?_)
    · intro hnone
      rw [hnone] at hport
      exact (Option.some.inj hport).symm
    · intro hhost hzero
      by_contra hwritten
      exact hleft ⟨hhost, hzero, hwritten⟩

theorem Restorable.roundTrips (hm : Restorable m) (h : kUrlRegexGroups text = some m)
    (hvalid : (parse text).valid = true) : RoundTrips toBase64 text := by
  obtain ⟨port, hport⟩ := portValue_of_valid h hvalid
  have hparse := parse_eq h hport
  have hagain := kUrlRegexGroups_toString toBase64 h hport hvalid
  rw [matchAuthority_normal h (hm.not_readsUser h hport), encodeComponent_eq_self.mpr hm.username] at hagain
  have hreparse := parse_eq hagain (portValue_normal port)
  refine ⟨?_, ?_, ?_⟩
  · apply (valid_iff hagain (portValue_normal port)).mpr
    simp only [schemeFromString_schemeToString, hparse]
    exact (valid_iff h hport).mp hvalid
  · rw [hreparse, hparse]
    simp [equals, schemeFromString_schemeToString, normal]
  · intro m' digits hm' hdigits
    obtain rfl := Option.some.inj (h.symm.trans hm')
    rw [hdigits] at hport
    obtain ⟨n, hn, rfl⟩ := portValue_digits hport
    obtain ⟨n', hlt, hn'⟩ := hm.port digits hdigits
    obtain rfl := Option.some.inj (hn.symm.trans hn')
    rw [hparse, BitVec.toNat_ofNat, Nat.mod_eq_of_lt hlt, hn]

theorem RoundTrips.restorable (hr : RoundTrips toBase64 text) (h : kUrlRegexGroups text = some m)
    (hvalid : (parse text).valid = true) : Restorable m := by
  obtain ⟨port, hport⟩ := portValue_of_valid h hvalid
  obtain ⟨-, hequal, hwritten⟩ := hr
  have hagain := kUrlRegexGroups_toString toBase64 h hport hvalid
  have husername : (parse ((parse text).toString toBase64 0)).username = m.username := by
    simp only [equals, Bool.and_eq_true, decide_eq_true_eq] at hequal
    rw [hequal.2, parse_username h]
  refine ⟨?_, ?_, ?_⟩
  · by_cases hempty : m.username = []
    · rw [hempty]
      exact forall_mem_nil _
    · rw [matchAuthority_normal h (fun hnil => absurd hnil hempty)] at hagain
      rw [parse_username hagain] at husername
      exact encodeComponent_eq_self.mp husername
  · intro digits hdigits
    exact ⟨_, (parse text).port.isLt, hwritten m digits h hdigits⟩
  · rintro hempty hhost ⟨digits, hdigits, hzero⟩ hreads
    rw [hdigits] at hport
    obtain ⟨n, hn, rfl⟩ := portValue_digits hport
    obtain rfl := Option.some.inj (hzero.symm.trans hn)
    have hauthority : authorityText m (BitVec.ofNat 16 0) = tailText m.path m.query m.fragment := by
      rw [authorityText, if_pos hempty, normalText, hhost]
      rfl
    obtain ⟨⟨info⟩, hwith⟩ := isSome_iff_exists.mp (readsUser_iff.mp hreads)
    obtain ⟨front, rest, hfront, -⟩ := matchWithUser_iff.mp hwith
    rw [hauthority, matchAuthority, hwith] at hagain
    rw [parse_username hagain, hempty] at husername
    exact hfront.ne_nil husername

/-- Exactly the restorable URLs survive being written and read, with a password or without. -/
theorem roundTrips_iff {text : Bytes} {m : CompleteMatch} (h : kUrlRegexGroups text = some m)
    (hvalid : (parse text).valid = true) : RoundTrips toBase64 text ↔ Restorable m :=
  ⟨fun hr => hr.restorable toBase64 h hvalid, fun hm => hm.roundTrips toBase64 h hvalid⟩

/-- A user name, a port with zeros in front, and an empty query. -/
theorem roundTrips_user_port : RoundTrips none (ascii "HTTP://me@h:0080/a/b?#c".toList) := by
  refine (@roundTrips_iff none _ ⟨⟨ascii ['h'], some (ascii "0080".toList), ascii "/a/b".toList, [],
    ascii ['c']⟩, ascii "HTTP".toList, ascii "me".toList, none⟩ (by decide) (by decide)).mpr ?_
  refine ⟨all_eq_true.mp (by decide), ?_, fun h => absurd h (by decide)⟩
  rintro digits h
  obtain rfl := Option.some.inj h
  exact ⟨80, by decide, by decide⟩

/-- The port 65536 becomes no port. -/
theorem wide_port_lost : ¬ ∀ (toBase64 : Option (Bytes → Bytes)) (text : Bytes) (m : CompleteMatch),
    kUrlRegexGroups text = some m → (parse text).valid = true → m.password = none →
      RoundTrips toBase64 text := by
  intro h
  have hlost := h none (ascii "http://h:65536/".toList) ⟨⟨ascii ['h'], some (ascii "65536".toList),
    ascii ['/'], [], []⟩, ascii "http".toList, [], none⟩ (by decide) (by decide) rfl
  exact absurd (hlost.2.2 _ (ascii "65536".toList) (by decide : kUrlRegexGroups _ = some ⟨⟨ascii ['h'],
    some (ascii "65536".toList), ascii ['/'], [], []⟩, ascii "http".toList, [], none⟩) rfl) (by decide)

/-- A user name with an escape, and a port of zero in front of an `@`. -/
example : ¬ RoundTrips none (ascii "http://a%20b@h/".toList) ∧
    ¬ RoundTrips none (ascii "file://:0/a@b".toList) :=
  ⟨fun h => absurd h.2.1 (by decide), fun h => absurd h.2.1 (by decide)⟩

end CompleteUrl

end JobNet
