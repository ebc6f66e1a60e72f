import OddBuilder.Net.QueryItems

/-!
# The canonical query

A percent-encoded text in its one spelling, and the query that `JobAws4Signer` signs: two
queries are signed alike if and only if they have the same pairs.
-/

namespace JobNet

open JobUrl List Function

namespace JobUrl

/-- A slash that is not escaped is `none`. -/
def character (c : UInt8) : Option UInt8 := if c = 47 then none else some c

/-- What a percent-encoded text says. -/
def characters : Bytes → List (Option UInt8)
  | c :: high :: low :: rest =>
    match escapedByte c high low with
    | some decoded => some decoded :: characters rest
    | none => character c :: characters (high :: low :: rest)
  | text => text.map character

/-- The bytes of a percent-encoded text. -/
def decoded (text : Bytes) : Bytes := (characters text).map fun c => c.getD 47

/-- A character as `uriEncode` writes it where it keeps slashes. -/
def spelled : Option UInt8 → Bytes
  | none => [47]
  | some c => encodedComponentByte c

set_option maxRecDepth 4096 in
theorem escapedByte_kHex (c : UInt8) :
    escapedByte 37 (kHex (c.toNat / 16)) (kHex (c.toNat % 16)) = some c :=
  of_decide_eq_true (RequestMessage.forall_byte
    (p := fun c => escapedByte 37 (kHex (c.toNat / 16)) (kHex (c.toNat % 16)) = some c)
    (by decide) c)

theorem characters_cons {c : UInt8} (h : c ≠ 37) (rest : Bytes) :
    characters (c :: rest) = character c :: characters rest := by
  cases rest with
  | nil => rfl
  | cons high rest =>
    cases rest with
    | nil => rfl
    | cons low rest => simp [characters, escapedByte, h]

theorem characters_spelled (said : List (Option UInt8)) :
    characters (said.flatMap spelled) = said := by
  induction said with
  | nil => rfl
  | cons c said ih =>
    cases c with
    | none => exact (characters_cons (by decide) _).trans (congrArg (none :: ·) ih)
    | some c =>
      rw [flatMap_cons, spelled, encodedComponentByte]
      split
      · rename_i hplain
        rw [singleton_append, characters_cons, ih, character, if_neg]
        · rintro rfl
          exact absurd hplain (by decide)
        · rintro rfl
          exact absurd hplain (by decide)
      · simp [characters, escapedByte_kHex, ih]

theorem decoded_encodeComponent (text : Bytes) : decoded (encodeComponent text) = text := by
  have hspelled : encodeComponent text = (text.map some).flatMap spelled :=
    (flatMap_map some spelled text).symm
  rw [decoded, hspelled, characters_spelled, map_map]
  exact map_id text

set_option maxRecDepth 4096 in
theorem encodedByte_eq : encodedByte = encodedComponentByte :=
  funext fun c => of_decide_eq_true (RequestMessage.forall_byte
    (p := fun c => encodedByte c = encodedComponentByte c) (by decide) c)

theorem uriEncode_eq (preserveSlash : Bool) (text : Bytes) : uriEncode preserveSlash text =
    (characters text).flatMap fun c =>
      if preserveSlash then spelled c else encodedComponentByte (c.getD 47) := by
  have hchar : ∀ c, encodedChar preserveSlash c = if preserveSlash then spelled (character c) else
      encodedComponentByte ((character c).getD 47) := by
    intro c
    grind [encodedChar, character, spelled, encodedByte_eq]
  induction text using characters.induct with
  | case1 c high low rest decoded hdecoded ih =>
    simp only [uriEncode, characters, hdecoded, ih, flatMap_cons, encodedByte_eq]
    split <;> rfl
  | case2 c high low rest hnone ih =>
    simp only [uriEncode, characters, hnone, ih, flatMap_cons, hchar]
  | case3 text hshort =>
    rw [uriEncode, characters, flatMap_map, funext hchar]
    · exact hshort
    · exact hshort

theorem uriEncode_true (text : Bytes) :
    uriEncode true text = (characters text).flatMap spelled := by
  simp [uriEncode_eq]

theorem uriEncode_false (text : Bytes) : uriEncode false text = encodeComponent (decoded text) := by
  simp [uriEncode_eq, decoded, encodeComponent, flatMap_map]

/-- Two texts are encoded alike if and only if they say the same, and a second encoding changes
nothing. -/
theorem uriEncode_exact (text other : Bytes) :
    (uriEncode true text = uriEncode true other ↔ characters text = characters other) ∧
    (uriEncode false text = uriEncode false other ↔ decoded text = decoded other) ∧
    ∀ preserveSlash, uriEncode preserveSlash (uriEncode preserveSlash text) =
      uriEncode preserveSlash text := by
  simp only [uriEncode_true, uriEncode_false]
  refine ⟨(LeftInverse.injective characters_spelled).eq_iff,
    (LeftInverse.injective decoded_encodeComponent).eq_iff, ?_⟩
  intro preserveSlash
  cases preserveSlash with
  | false => rw [uriEncode_false, uriEncode_false, decoded_encodeComponent]
  | true => rw [uriEncode_true, uriEncode_true, characters_spelled]

/-- The components of a query, each with what stands in front of its first `=` and behind it. -/
def queryPairs (query : Bytes) : List (Bytes × Bytes) :=
  if query = [] then []
  else
    (query.splitOn 38).map fun component =>
      (component.takeWhile (· != 61), (component.dropWhile (· != 61)).drop 1)

end JobUrl

namespace JobAws4Signer

/-- The items of a query as they are sorted. -/
def encodedItems (query : Bytes) : List (Bytes × Bytes) :=
  (queryPairs query).map fun raw => (uriEncode false raw.1, uriEncode false raw.2)

def canonicalQuery (url : JobUrl) : Bytes :=
  intercalate [38] (((byBytes.pairs byBytes).sortBy id (encodedItems url.query)).map fun item =>
    item.1 ++ 61 :: item.2)

/-- What a query says. -/
def saidPairs (query : Bytes) : List (Bytes × Bytes) :=
  (queryPairs query).map fun raw => (decoded raw.1, decoded raw.2)

theorem saidPairs_itemTexts (items : List (Bytes × Bytes)) :
    saidPairs (intercalate [38] (items.map itemText)) = items := by
  by_cases hitems : items = []
  · rw [hitems]
    rfl
  have hmem : ∀ text ∈ items.map itemText, 38 ∉ text ∧ text ≠ [] := by
    intro text htext
    obtain ⟨item, -, rfl⟩ := mem_map.mp htext
    simp [itemText, separators_not_mem]
  have hsplit := splitOn_intercalate 38 (fun text h => (hmem text h).1)
    (map_eq_nil_iff.not.mpr hitems)
  have hquery : intercalate [38] (items.map itemText) ≠ [] := by
    intro hnil
    rw [hnil, splitOn_nil] at hsplit
    exact (hmem [] (hsplit ▸ mem_singleton_self [])).2 rfl
  have hname : ∀ item : Bytes × Bytes, ∀ c ∈ encodeComponent item.1, (c != 61) = true :=
    fun item c hc => bne_iff_ne.mpr fun h => (separators_not_mem item.1).2 (h ▸ hc)
  rw [saidPairs, queryPairs, if_neg hquery, hsplit, map_map, map_map]
  refine (map_congr_left fun item _ => ?_).trans (map_id items)
  simp [itemText, takeWhile_append_of_pos (hname item), dropWhile_append_of_pos (hname item),
    decoded_encodeComponent]

/-- The signer finds in a query the items that were set. -/
theorem saidPairs_setQueryItems (url : JobUrl) (items : QueryItems) :
    saidPairs (url.setQueryItems items).query = items.entries :=
  saidPairs_itemTexts items.entries

theorem encodedItems_eq (query : Bytes) : encodedItems query =
    (saidPairs query).map fun item => (encodeComponent item.1, encodeComponent item.2) := by
  simp [encodedItems, saidPairs, uriEncode_false, comp_def]

/-- The canonical query says what the query says, in some order. -/
theorem saidPairs_canonicalQuery (url : JobUrl) :
    (saidPairs (canonicalQuery url)).Perm (saidPairs url.query) := by
  let items := (byBytes.pairs byBytes).sortBy id (encodedItems url.query)
  have htexts : canonicalQuery url =
      intercalate [38] ((items.map fun item => (decoded item.1, decoded item.2)).map itemText) := by
    rw [canonicalQuery, map_map]
    refine congrArg _ (map_congr_left fun item hitem => ?_)
    rw [encodedItems_eq] at hitem
    obtain ⟨said, -, rfl⟩ := mem_map.mp ((mergeSort_perm _ _).mem_iff.mp hitem)
    simp [itemText, decoded_encodeComponent]
  rw [htexts, saidPairs_itemTexts]
  refine ((mergeSort_perm _ _).map _).trans ?_
  rw [encodedItems_eq]
  simp [comp_def, decoded_encodeComponent]

/-- Two queries are signed alike if and only if they say the same pairs. -/
theorem canonicalQuery_eq_iff (url other : JobUrl) : canonicalQuery url = canonicalQuery other ↔
    (saidPairs url.query).Perm (saidPairs other.query) := by
  constructor
  · intro h
    exact (saidPairs_canonicalQuery url).symm.trans (h ▸ saidPairs_canonicalQuery other)
  · intro h
    have hsort := (Comparison.sortBy_eq_iff (c := byBytes.pairs byBytes)
      fun a _ b _ (hab : id a = id b) => hab).mpr (h.map fun item =>
        (encodeComponent item.1, encodeComponent item.2))
    rw [canonicalQuery, canonicalQuery, encodedItems_eq, encodedItems_eq, hsort]

end JobAws4Signer

end JobNet
