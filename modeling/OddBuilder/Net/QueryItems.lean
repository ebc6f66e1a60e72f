import OddBuilder.Library.Collections
import OddBuilder.Net.RequestMessage

/-!
# Query items

A map of byte strings as the query of a URL, and read back from it.
-/

namespace JobNet

open List

/-- `operator<` of strings. -/
def lessBytes : Bytes → Bytes → Bool
  | _, [] => false
  | [], _ :: _ => true
  | a :: as, b :: bs => a < b || a = b && lessBytes as bs

theorem lessBytes_irrefl (a : Bytes) : lessBytes a a = false := by
  induction a with
  | nil => rfl
  | cons a as ih => simp [lessBytes, ih]

theorem lessBytes_trans {a b c : Bytes} (hab : lessBytes a b = true) (hbc : lessBytes b c = true) :
    lessBytes a c = true := by
  induction a generalizing b c with
  | nil =>
    cases c with
    | nil => cases b <;> cases hbc
    | cons c cs => rfl
  | cons a as ih =>
    cases b with
    | nil => cases hab
    | cons b bs =>
      cases c with
      | nil => cases hbc
      | cons c cs =>
        simp only [lessBytes, Bool.or_eq_true, Bool.and_eq_true, decide_eq_true_eq] at hab hbc ⊢
        obtain hab | ⟨rfl, hab⟩ := hab
        · left
          obtain hbc | ⟨rfl, -⟩ := hbc
          · exact UInt8.lt_trans hab hbc
          · exact hab
        · obtain hbc | ⟨rfl, hbc⟩ := hbc
          · exact Or.inl hbc
          · exact Or.inr ⟨rfl, ih hab hbc⟩

theorem lessBytes_total {a b : Bytes} (hab : lessBytes a b = false) (hba : lessBytes b a = false) :
    a = b := by
  induction a generalizing b with
  | nil =>
    cases b with
    | nil => rfl
    | cons b bs => cases hab
  | cons a as ih =>
    cases b with
    | nil => cases hba
    | cons b bs =>
      simp only [lessBytes, Bool.or_eq_false_iff, decide_eq_false_iff_not, UInt8.not_lt] at hab hba
      obtain rfl := UInt8.le_antisymm hba.1 hab.1
      simp only at hab hba
      rw [ih hab.2 hba.2]

def byBytes : Comparison Bytes where
  less := lessBytes
  irrefl := lessBytes_irrefl
  trans := lessBytes_trans
  total := lessBytes_total

/-- What repeated `std::getline` calls read. Behind a last delimiter there is no piece. -/
def getlines (delimiter : UInt8) : Bytes → List Bytes
  | [] => []
  | c :: text =>
    if c = delimiter then [] :: getlines delimiter text
    else
      match getlines delimiter text with
      | [] => [[c]]
      | piece :: pieces => (c :: piece) :: pieces

theorem getlines_single {delimiter : UInt8} {piece : Bytes} (h : delimiter ∉ piece)
    (hne : piece ≠ []) : getlines delimiter piece = [piece] := by
  induction piece with
  | nil => exact absurd rfl hne
  | cons c piece ih =>
    obtain ⟨hc, hrest⟩ := not_or.mp (mem_cons.not.mp h)
    rw [getlines, if_neg (Ne.symm hc)]
    by_cases hpiece : piece = []
    · rw [hpiece]
      rfl
    · rw [ih hrest hpiece]

theorem getlines_append {delimiter : UInt8} {piece : Bytes} (h : delimiter ∉ piece) (text : Bytes) :
    getlines delimiter (piece ++ delimiter :: text) = piece :: getlines delimiter text := by
  induction piece with
  | nil => rw [nil_append, getlines, if_pos rfl]
  | cons c piece ih =>
    obtain ⟨hc, hrest⟩ := not_or.mp (mem_cons.not.mp h)
    rw [cons_append, getlines, if_neg (Ne.symm hc), ih hrest]

theorem getlines_intercalate {delimiter : UInt8} {pieces : List Bytes}
    (h : ∀ piece ∈ pieces, delimiter ∉ piece ∧ piece ≠ []) :
    getlines delimiter (List.intercalate [delimiter] pieces) = pieces := by
  induction pieces with
  | nil => rfl
  | cons piece pieces ih =>
    obtain ⟨hpiece, hrest⟩ := forall_mem_cons.mp h
    cases pieces with
    | nil => simpa using getlines_single hpiece.1 hpiece.2
    | cons next pieces =>
      rw [intercalate_cons_cons, append_assoc, singleton_append, getlines_append hpiece.1, ih hrest]

namespace JobUrl

/-- What `encodeComponent` writes as it is. -/
def isPlain (c : UInt8) : Bool := isAlpha c || isDigit c || c ∈ ascii ['-', '_', '.', '~']

/-- What the loop of `encodeComponent` writes for one byte. -/
def encodedComponentByte (c : UInt8) : Bytes :=
  if isPlain c then [c] else [37, kHex (c.toNat / 16), kHex (c.toNat % 16)]

def encodeComponent (input : Bytes) : Bytes := input.flatMap encodedComponentByte

/-- White space in front of a number of a stream. -/
def isStreamSpace (c : UInt8) : Bool := c = 32 || (9 ≤ c && c ≤ 13)

/-- `std::hex` and `operator>>` of a stream of two characters: white space, a sign and `0x` may come
first, and what follows the digits is left. -/
def readHex (text : Bytes) : Option Int :=
  let text := text.dropWhile isStreamSpace
  let (negative, text) :=
    match text with
    | 45 :: rest => (true, rest)
    | 43 :: rest => (false, rest)
    | _ => (false, text)
  let text :=
    match text with
    | 48 :: 120 :: rest => rest
    | 48 :: 88 :: rest => rest
    | _ => text
  (fromChars 16 255 (text.takeWhile fun c => (digitValue c).isSome)).map fun value =>
    if negative then -(value : Int) else value

def decodeComponent : Bytes → Bytes
  | 37 :: high :: low :: rest =>
    match readHex [high, low] with
    | some value => UInt8.ofInt value :: decodeComponent rest
    | none => decodeComponent rest
  | c :: rest => c :: decodeComponent rest
  | [] => []

set_option maxRecDepth 4096 in
theorem readHex_escape (c : UInt8) :
    readHex [kHex (c.toNat / 16), kHex (c.toNat % 16)] = some (c.toNat : Int) := by
  have hall := RequestMessage.forall_byte
    (p := fun c => readHex [kHex (c.toNat / 16), kHex (c.toNat % 16)] = some (c.toNat : Int))
    (by decide) c
  exact of_decide_eq_true hall

theorem decodeComponent_cons {c : UInt8} (h : c ≠ 37) (rest : Bytes) :
    decodeComponent (c :: rest) = c :: decodeComponent rest := by
  rw [decodeComponent]
  rintro high low rest' rfl
  exact absurd rfl h

theorem decodeComponent_encoded (c : UInt8) (rest : Bytes) :
    decodeComponent (encodedComponentByte c ++ rest) = c :: decodeComponent rest := by
  unfold encodedComponentByte
  split
  · rename_i hplain
    apply decodeComponent_cons
    rintro rfl
    exact absurd hplain (by decide)
  · simp only [cons_append, decodeComponent, readHex_escape]
    congr 1
    rw [UInt8.ofInt, Int.emod_eq_of_lt (Int.natCast_nonneg _) (by exact_mod_cast c.toNat_lt),
      Int.toNat_natCast, UInt8.ofNat_toNat]

theorem decodeComponent_encodeComponent (input : Bytes) :
    decodeComponent (encodeComponent input) = input := by
  induction input with
  | nil => rfl
  | cons c input ih => rw [encodeComponent, flatMap_cons, decodeComponent_encoded, ← encodeComponent, ih]

set_option maxRecDepth 4096 in
theorem separators_not_mem (input : Bytes) : 38 ∉ encodeComponent input ∧ 61 ∉ encodeComponent input := by
  have hall := RequestMessage.forall_byte
    (p := fun c => 38 ∉ encodedComponentByte c ∧ 61 ∉ encodedComponentByte c) (by decide)
  constructor
  · intro hmem
    obtain ⟨c, -, hc⟩ := mem_flatMap.mp hmem
    exact (of_decide_eq_true (hall c)).1 hc
  · intro hmem
    obtain ⟨c, -, hc⟩ := mem_flatMap.mp hmem
    exact (of_decide_eq_true (hall c)).2 hc

abbrev QueryItems : Type := SortedMap byBytes Bytes

/-- A key and its value in the query. -/
def itemText (item : Bytes × Bytes) : Bytes :=
  encodeComponent item.1 ++ 61 :: encodeComponent item.2

def setQueryItems (url : JobUrl) (items : QueryItems) : JobUrl :=
  url.setQuery (List.intercalate [38] (items.entries.map itemText))

/-- One turn of the loop of `queryItems`. A piece without `=` is passed over. -/
def addPair (items : QueryItems) (pair : Bytes) : QueryItems :=
  match find 61 pair with
  | none => items
  | some eqPos =>
    items.insert (decodeComponent (pair.take eqPos)) (decodeComponent (pair.drop (eqPos + 1)))

def queryItems (url : JobUrl) : QueryItems := (getlines 38 url.query).foldl addPair SortedMap.empty

theorem addPair_itemText (items : QueryItems) (item : Bytes × Bytes) :
    addPair items (itemText item) = items.insert item.1 item.2 := by
  have hdrop : (itemText item).drop ((encodeComponent item.1).length + 1) = encodeComponent item.2 := by
    rw [itemText, drop_length_add_append, drop_succ_cons, drop_zero]
  rw [addPair, show find 61 (itemText item) = some _ from find_append (separators_not_mem item.1).2 _]
  simp only [hdrop]
  rw [itemText, take_left, decodeComponent_encodeComponent, decodeComponent_encodeComponent]

theorem getlines_itemTexts (entries : List (Bytes × Bytes)) :
    getlines 38 (List.intercalate [38] (entries.map itemText)) = entries.map itemText := by
  apply getlines_intercalate
  intro piece hpiece
  obtain ⟨item, -, rfl⟩ := mem_map.mp hpiece
  constructor
  · rw [itemText, mem_append, mem_cons, not_or, not_or]
    exact ⟨(separators_not_mem item.1).1, by decide, (separators_not_mem item.2).1⟩
  · exact append_ne_nil_of_right_ne_nil _ (cons_ne_nil _ _)

/-- Items that are set are read back, since a component decodes to what it was made of and has none
of the characters that separate items. -/
theorem queryItems_setQueryItems (url : JobUrl) (items : QueryItems) :
    (url.setQueryItems items).queryItems = items ∧
    ∀ input, decodeComponent (encodeComponent input) = input ∧
      38 ∉ encodeComponent input ∧ 61 ∉ encodeComponent input := by
  constructor
  · have hfold : (items.entries.map itemText).foldl addPair SortedMap.empty =
        items.entries.foldl (fun m entry => m.insert entry.1 entry.2) SortedMap.empty := by
      rw [foldl_map]
      simp only [addPair_itemText]
    rw [queryItems, setQueryItems, setQuery, getlines_itemTexts, hfold, SortedMap.foldl_insert_empty]
  · intro input
    exact ⟨decodeComponent_encodeComponent input, separators_not_mem input⟩

end JobUrl

end JobNet
