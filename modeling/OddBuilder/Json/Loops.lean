import OddBuilder.Json.Meaning

/-!
# The loops of the parser

The containers' loops, over any parser of their elements that reads what the
grammar allows and stores what the tree means: they read the bodies of arrays
and objects and store what these mean.
-/

namespace JobJson

open JsonLexer Option

variable {c d : Bytes} {lex : JsonLex}

/-- A parser that accepts exactly the texts of the trees that have a meaning, and stores it. -/
structure Implements (element : JsonLex → JsonCursor → ParsedValue)
    (meaning : Json → Option JsonValue) : Prop where
  sound : ∀ {c d r lex v}, next c = some (lex, d) → element lex d = .ok (v, r) →
    ∃ j, Reads j c r ∧ meaning j = some v
  complete : ∀ {c d r lex j v}, next c = some (lex, d) → Reads j c r → meaning j = some v →
    element lex d = .ok (v, r)

/-- What stands behind the bracket that opens an array. -/
def ArrayBody (js : List Json) (c r : Bytes) : Prop :=
  (js = [] ∧ ∃ w, IsWs w ∧ c = w ++ endArray :: r) ∨ Elements js c r

theorem elements_last {j : Json} {r : Bytes} (hj : Reads j c d) (hnext : next d = some (lex, r))
    (hlex : lex.type = .endArray) : Elements [j] c r := by
  obtain ⟨⟨w, b, rfl, hw, hvalue⟩⟩ := hj
  obtain ⟨w', hw', rfl⟩ := next_mark hnext (by rw [hlex]; rfl)
  exact .last hw hvalue hw'

theorem elements_more {j : Json} {js : List Json} {e r : Bytes} (hj : Reads j c d)
    (hnext : next d = some (lex, e)) (hlex : lex.type = .valueSeparator) (hjs : Elements js e r) :
    Elements (j :: js) c r := by
  obtain ⟨⟨w, b, rfl, hw, hvalue⟩⟩ := hj
  obtain ⟨w', hw', rfl⟩ := next_mark hnext (by rw [hlex]; rfl)
  exact .more hw hvalue hw' hjs

/-- Behind an element stands the bracket, or a comma and further elements. -/
theorem elements_cases {j : Json} {js : List Json} {r : Bytes} (h : Elements (j :: js) c r) :
    ∃ e, Reads j c e ∧
      ((js = [] ∧ nextLex e = .ok (⟨.endArray, [endArray], false⟩, r)) ∨
        ∃ e', nextLex e = .ok (⟨.valueSeparator, [valueSeparator], false⟩, e') ∧
          Elements js e' r) := by
  cases h with
  | last hw hj hw' =>
    exact ⟨_, ⟨⟨_, _, rfl, hw, hj⟩, fun _ => terminated_ws hw' (by decide)⟩,
      Or.inl ⟨rfl, nextLex_ok_iff.mpr (next_of_mark .endArray hw' rfl)⟩⟩
  | more hw hj hw' hjs =>
    exact ⟨_, ⟨⟨_, _, rfl, hw, hj⟩, fun _ => terminated_ws hw' (by decide)⟩,
      Or.inr ⟨_, nextLex_ok_iff.mpr (next_of_mark .valueSeparator hw' rfl), hjs⟩⟩

/-- Elements begin with a token of a value. -/
theorem elements_begin {js : List Json} {r : Bytes} (h : Elements js c r) :
    ∃ lex d, nextLex c = .ok (lex, d) ∧ next c = some (lex, d) ∧ beginsValue lex.type = true := by
  obtain ⟨lex, d, hlex, hnext⟩ := nextLex_total c
  cases js with
  | nil => cases h
  | cons j js =>
    obtain ⟨_, hreads, _⟩ := elements_cases h
    exact ⟨lex, d, hlex, hnext, (hreads.token hnext).2⟩

section Sequences

variable {element : JsonLex → JsonCursor → ParsedValue} {meaning : Json → Option JsonValue}
  {add : List JsonValue → JsonValue → List JsonValue}

theorem sequenceLoop_sound (impl : Implements element meaning) (turns : Nat) :
    ∀ {vs vs' c d r lex}, next c = some (lex, d) →
      sequenceLoop element add turns vs lex d = .ok (vs', r) →
      ∃ js, Elements js c r ∧ assignAll meaning add vs js = some vs' := by
  induction turns with
  | zero =>
    intro vs vs' c d r lex _ h
    cases h
  | succ turns ih =>
    intro vs vs' c d r lex hnext h
    simp only [sequenceLoop, bind_ok_iff] at h
    obtain ⟨⟨v⟩, helement, ⟨lex₁⟩, hlex₁, h⟩ := h
    rw [nextLex_ok_iff] at hlex₁
    obtain ⟨j, hreads, hmeaning⟩ := impl.sound hnext helement
    split at h
    · rename_i hend
      obtain ⟨rfl, rfl⟩ := Prod.mk.inj (Except.ok.inj h)
      exact ⟨[j], elements_last hreads hlex₁ hend, by simp [assignAll, hmeaning]⟩
    split at h
    · cases h
    split at h
    · cases h
    rename_i hsep
    rw [not_not] at hsep
    rw [bind_ok_iff] at h
    obtain ⟨⟨lex₂⟩, hlex₂, h⟩ := h
    rw [nextLex_ok_iff] at hlex₂
    split at h
    · cases h
    obtain ⟨js, helements, hassign⟩ := ih hlex₂ h
    refine ⟨j :: js, elements_more hreads hlex₁ hsep helements, ?_⟩
    simp [assignAll, hmeaning, hassign]

theorem sequenceLoop_complete (impl : Implements element meaning) (js : List Json) :
    ∀ {turns vs vs' c d r lex}, Elements js c r → assignAll meaning add vs js = some vs' →
      next c = some (lex, d) → d.length < turns →
      sequenceLoop element add turns vs lex d = .ok (vs', r) := by
  induction js with
  | nil =>
    intro turns vs vs' c d r lex h
    cases h
  | cons j js ih =>
    intro turns vs vs' c d r lex h hassign hnext hturns
    obtain ⟨turns, rfl⟩ := Nat.exists_eq_succ_of_ne_zero (Nat.ne_of_gt (Nat.zero_lt_of_lt hturns))
    obtain ⟨v, hmeaning, hassign⟩ := bind_eq_some_iff.mp hassign
    obtain ⟨e, hreads, hbehind⟩ := elements_cases h
    have helement := impl.complete hnext hreads hmeaning
    rcases hbehind with ⟨rfl, hclose⟩ | ⟨e', hsep, hjs⟩
    · obtain rfl := Option.some.inj hassign
      simp only [sequenceLoop, bind_ok_iff]
      exact ⟨_, helement, _, hclose, rfl⟩
    · have hlen := (hreads.token hnext).1
      have hcomma := (next_sound (nextLex_ok_iff.mp hsep) (by decide)).length_lt (by decide)
      obtain ⟨lex', d', hlex', hnext', hbegins⟩ := elements_begin hjs
      have hshort := next_length_lt hnext' hbegins
      have hnotEnd : lex'.type ≠ .end := beginsValue_ne hbegins rfl
      have further := @ih turns _ _ _ _ _ _ hjs hassign hnext' (by omega)
      simp only [sequenceLoop, bind_ok_iff]
      refine ⟨_, helement, _, hsep, ?_⟩
      simp only [reduceCtorEq, if_false, ne_eq, not_true_eq_false, bind_ok_iff]
      exact ⟨_, hlex', by simp [hnotEnd, further]⟩

theorem parseGrowing_iff (impl : Implements element meaning) (c r : Bytes)
    (vs : List JsonValue) :
    parseGrowing element add c = .ok (vs, r) ↔
      ∃ js, ArrayBody js c r ∧ assignAll meaning add [] js = some vs := by
  constructor
  · intro h
    simp only [parseGrowing, bind_ok_iff] at h
    obtain ⟨⟨lex⟩, hlex, h⟩ := h
    rw [nextLex_ok_iff] at hlex
    split at h
    · rename_i hend
      obtain ⟨rfl, rfl⟩ := Prod.mk.inj (Except.ok.inj h)
      exact ⟨[], Or.inl ⟨rfl, next_mark hlex (by rw [hend]; rfl)⟩, rfl⟩
    split at h
    · cases h
    obtain ⟨js, helements, hassign⟩ := sequenceLoop_sound impl _ hlex h
    exact ⟨js, Or.inr helements, hassign⟩
  · rintro ⟨js, ⟨rfl, w, hw, rfl⟩ | helements, hassign⟩
    · have hclose := nextLex_ok_iff.mpr (next_of_mark .endArray (r := r) hw rfl)
      obtain rfl := Option.some.inj hassign
      simp only [parseGrowing, bind_ok_iff]
      exact ⟨_, hclose, rfl⟩
    · obtain ⟨lex, d, hlex, hnext, hbegins⟩ := elements_begin helements
      have hloop := sequenceLoop_complete impl js helements hassign hnext (Nat.lt_succ_self _)
      simp only [parseGrowing, bind_ok_iff]
      refine ⟨_, hlex, ?_⟩
      rw [if_neg (beginsValue_ne hbegins rfl), if_neg (beginsValue_ne hbegins rfl)]
      exact hloop

end Sequences

section Fixed

variable {element : JsonValue → JsonLex → JsonCursor → ParsedValue}
  {meaning : JsonValue → Json → Option JsonValue}

theorem fixedLoop_sound (impl : ∀ d, Implements (element d) (meaning d)) (ds : List JsonValue) :
    ∀ {vs c d r lex}, next c = some (lex, d) → fixedLoop element ds lex d = .ok (vs, r) →
      ∃ js, Elements js c r ∧ assignFixed meaning ds js = some vs := by
  induction ds with
  | nil =>
    intro vs c d r lex _ h
    cases h
  | cons x ds ih =>
    intro vs c d r lex hnext h
    simp only [fixedLoop, bind_ok_iff] at h
    obtain ⟨⟨v⟩, helement, ⟨lex₁⟩, hlex₁, h⟩ := h
    rw [nextLex_ok_iff] at hlex₁
    obtain ⟨j, hreads, hmeaning⟩ := (impl x).sound hnext helement
    split at h
    · rename_i hend
      split at h
      · rename_i hlast
        obtain ⟨rfl, rfl⟩ := Prod.mk.inj (Except.ok.inj h)
        exact ⟨[j], elements_last hreads hlex₁ hend, by simp [assignFixed, hmeaning, hlast]⟩
      · cases h
    split at h
    · cases h
    split at h
    · cases h
    rename_i hsep
    rw [not_not] at hsep
    rw [bind_ok_iff] at h
    obtain ⟨⟨lex₂⟩, hlex₂, h⟩ := h
    rw [nextLex_ok_iff] at hlex₂
    split at h
    · cases h
    split at h
    · cases h
    rw [bind_ok_iff] at h
    obtain ⟨⟨vs'⟩, hloop, h⟩ := h
    obtain ⟨rfl, rfl⟩ := Prod.mk.inj (Except.ok.inj h)
    obtain ⟨js, helements, hassign⟩ := ih hlex₂ hloop
    refine ⟨j :: js, elements_more hreads hlex₁ hsep helements, ?_⟩
    simp [assignFixed, hmeaning, hassign]

theorem fixedLoop_complete (impl : ∀ d, Implements (element d) (meaning d)) (js : List Json) :
    ∀ {ds vs c d r lex}, Elements js c r → assignFixed meaning ds js = some vs →
      next c = some (lex, d) → fixedLoop element ds lex d = .ok (vs, r) := by
  induction js with
  | nil =>
    intro ds vs c d r lex h
    cases h
  | cons j js ih =>
    intro ds vs c d r lex h hassign hnext
    cases ds with
    | nil => cases hassign
    | cons x ds =>
      obtain ⟨v, hmeaning, hassign⟩ := bind_eq_some_iff.mp hassign
      obtain ⟨vs', hrest, rfl⟩ := map_eq_some_iff.mp hassign
      obtain ⟨e, hreads, hbehind⟩ := elements_cases h
      have helement := (impl x).complete hnext hreads hmeaning
      rcases hbehind with ⟨rfl, hclose⟩ | ⟨e', hsep, hjs⟩
      · have hlast : ds = [] ∧ vs' = [] := by
          cases ds with
          | nil => exact ⟨rfl, by simpa [assignFixed] using hrest.symm⟩
          | cons y ds => cases hrest
        simp only [fixedLoop, bind_ok_iff]
        refine ⟨_, helement, _, hclose, ?_⟩
        simp [hlast]
      · obtain ⟨lex', d', hlex', hnext', hbegins⟩ := elements_begin hjs
        have further := ih hjs hrest hnext'
        simp only [fixedLoop, bind_ok_iff]
        refine ⟨_, helement, _, hsep, ?_⟩
        simp only [reduceCtorEq, if_false, ne_eq, not_true_eq_false, bind_ok_iff]
        refine ⟨_, hlex', ?_⟩
        rw [if_neg (beginsValue_ne hbegins rfl), if_neg (beginsValue_ne hbegins rfl), bind_ok_iff]
        exact ⟨_, further, rfl⟩

theorem parseFixedSequence_iff (impl : ∀ d, Implements (element d) (meaning d))
    (ds vs : List JsonValue) (c r : Bytes) :
    parseFixedSequence element ds c = .ok (vs, r) ↔
      ∃ js, ArrayBody js c r ∧ assignFixed meaning ds js = some vs := by
  constructor
  · intro h
    simp only [parseFixedSequence, bind_ok_iff] at h
    obtain ⟨⟨lex⟩, hlex, h⟩ := h
    rw [nextLex_ok_iff] at hlex
    split at h
    · rename_i hend
      split at h
      · rename_i hempty
        obtain ⟨rfl, rfl⟩ := Prod.mk.inj (Except.ok.inj h)
        exact ⟨[], Or.inl ⟨rfl, next_mark hlex (by rw [hend]; rfl)⟩, by rw [hempty]; rfl⟩
      · cases h
    split at h
    · cases h
    obtain ⟨js, helements, hassign⟩ := fixedLoop_sound impl ds hlex h
    exact ⟨js, Or.inr helements, hassign⟩
  · rintro ⟨js, ⟨rfl, w, hw, rfl⟩ | helements, hassign⟩
    · have hclose := nextLex_ok_iff.mpr (next_of_mark .endArray (r := r) hw rfl)
      have hempty : ds = [] ∧ vs = [] := by
        cases ds with
        | nil => exact ⟨rfl, by simpa [assignFixed] using hassign.symm⟩
        | cons y ds => cases hassign
      simp only [parseFixedSequence, bind_ok_iff]
      refine ⟨_, hclose, ?_⟩
      simp [hempty]
    · obtain ⟨lex, d, hlex, hnext, hbegins⟩ := elements_begin helements
      simp only [parseFixedSequence, bind_ok_iff]
      refine ⟨_, hlex, ?_⟩
      rw [if_neg (beginsValue_ne hbegins rfl), if_neg (beginsValue_ne hbegins rfl)]
      exact fixedLoop_complete impl js helements hassign hnext

end Fixed

section Entries

variable {S : Type} {parse : JsonTy S → JsonValue → JsonLex → JsonCursor → ParsedValue}
  {meaning : JsonTy S → JsonValue → Json → Option JsonValue}

theorem parseNext_iff (impl : ∀ ty dest, Implements (parse ty dest) (meaning ty dest))
    (ty : JsonTy S) (dest v : JsonValue) (c r : Bytes) :
    parseNext parse ty dest c = .ok (v, r) ↔ ∃ j, Reads j c r ∧ meaning ty dest j = some v := by
  constructor
  · intro h
    simp only [parseNext, bind_ok_iff] at h
    obtain ⟨⟨lex⟩, hlex, h⟩ := h
    exact (impl ty dest).sound (nextLex_ok_iff.mp hlex) h
  · rintro ⟨j, hreads, hmeaning⟩
    obtain ⟨lex, d, hlex, hnext⟩ := nextLex_total c
    simp only [parseNext, bind_ok_iff]
    exact ⟨_, hlex, (impl ty dest).complete hnext hreads hmeaning⟩

theorem parseEntry_implements (impl : ∀ ty dest, Implements (parse ty dest) (meaning ty dest))
    (key mapped : JsonTy S) (k m : JsonValue) :
    Implements (parseEntry (parseNext parse key k) (parseNext parse mapped m))
      (assignEntry (meaning key k) (meaning mapped m)) := by
  constructor
  · intro c d r lex v hnext h
    simp only [parseEntry] at h
    split at h
    · cases h
    rename_i hopen
    rw [not_not] at hopen
    simp only [bind_ok_iff] at h
    obtain ⟨⟨k', c₁⟩, hkey, ⟨lex₁, c₂⟩, hlex₁, h⟩ := h
    rw [nextLex_ok_iff] at hlex₁
    split at h
    · cases h
    split at h
    · cases h
    rename_i hsep
    rw [not_not] at hsep
    simp only [bind_ok_iff] at h
    obtain ⟨⟨m', c₃⟩, hmapped, ⟨lex₂, c₄⟩, hlex₂, h⟩ := h
    rw [nextLex_ok_iff] at hlex₂
    split at h
    · cases h
    split at h
    · cases h
    rename_i hclose
    rw [not_not] at hclose
    obtain ⟨rfl, rfl⟩ := Prod.mk.inj (Except.ok.inj h)
    obtain ⟨a, hreadsKey, hmeaningKey⟩ := (parseNext_iff impl key k k' d c₁).mp hkey
    obtain ⟨b, hreadsMapped, hmeaningMapped⟩ := (parseNext_iff impl mapped m m' c₂ c₃).mp hmapped
    obtain ⟨w, hw, rfl⟩ := next_mark hnext (by rw [hopen]; rfl)
    have hpair : Elements [a, b] d c₄ :=
      elements_more hreadsKey hlex₁ hsep (elements_last hreadsMapped hlex₂ hclose)
    refine ⟨.array [a, b], ⟨⟨w, _, rfl, hw, .array hpair⟩, by simp [Json.isOpenEnded]⟩, ?_⟩
    simp [assignEntry, hmeaningKey, hmeaningMapped]
  · intro c d r lex j v hnext hreads hmeaning
    match j, hmeaning with
    | .array [a, b], hmeaning =>
      obtain ⟨k', hmeaningKey, hmeaning⟩ := bind_eq_some_iff.mp hmeaning
      obtain ⟨m', hmeaningMapped, rfl⟩ := map_eq_some_iff.mp hmeaning
      obtain ⟨⟨w, text, rfl, hw, hvalue⟩⟩ := hreads
      cases hvalue with
      | array hpair =>
        obtain ⟨rfl, rfl⟩ := next_det hnext (next_of_mark .beginArray hw rfl)
        obtain ⟨_, hreadsKey, ⟨hnil, _⟩ | ⟨_, hsep, hrest⟩⟩ := elements_cases hpair
        · cases hnil
        obtain ⟨_, hreadsMapped, ⟨_, hclose⟩ | ⟨_, _, hnone⟩⟩ := elements_cases hrest
        · have hkey := (parseNext_iff impl key k k' _ _).mpr ⟨a, hreadsKey, hmeaningKey⟩
          have hmapped := (parseNext_iff impl mapped m m' _ _).mpr
            ⟨b, hreadsMapped, hmeaningMapped⟩
          simp only [parseEntry, ne_eq, not_true_eq_false, if_false, bind_ok_iff]
          refine ⟨_, hkey, _, hsep, ?_⟩
          simp only [reduceCtorEq, not_true_eq_false, if_false, bind_ok_iff]
          exact ⟨_, hmapped, _, hclose, rfl⟩
        · cases hnone

end Entries

theorem content_quoted (cs : List JsonChar) (type : JsonLexType) (hasEscapes : Bool) :
    content ⟨type, quoted cs, hasEscapes⟩ = charsText cs := by
  simp [content, quoted]

theorem decodedText_raw {cs : List JsonChar} (h : cs.any JsonChar.isEscape = false) :
    decodedText cs = some (charsText cs) := by
  induction cs with
  | nil => rfl
  | cons ch cs ih =>
    rw [List.any_cons, Bool.or_eq_false_iff] at h
    cases ch with
    | raw c => simp [decodedText, ih h.2, charsText_cons, JsonChar.text]
    | short c => cases h.1
    | unicode a b c d => cases h.1

/-- The text of a string token is what its characters stand for. -/
theorem stringText_eq {cs : List JsonChar} (hcs : ∀ ch ∈ cs, ch.Valid) :
    stringText ⟨.string, quoted cs, cs.any JsonChar.isEscape⟩ =
      match decodedText cs with
      | none => .error (.fail .invalidUnicode)
      | some s => .ok s := by
  simp only [stringText, content_quoted]
  by_cases hescape : cs.any JsonChar.isEscape = true
  · simp only [hescape, decode_eq hcs]
    cases decodedText cs <;> rfl
  · rw [Bool.not_eq_true] at hescape
    simp [hescape, decodedText_raw hescape]

theorem next_string (h : next c = some (lex, d)) (hlex : lex.type = .string) :
    ∃ w cs, IsWs w ∧ (∀ ch ∈ cs, ch.Valid) ∧ c = w ++ (quoted cs ++ d) ∧
      lex = ⟨.string, quoted cs, cs.any JsonChar.isEscape⟩ := by
  cases next_sound h (by simp [hlex]) with
  | «end» hw => cases hlex
  | mark hw hb =>
    have hmark := punctuation_markOf hb
    dsimp only at hlex
    rw [hlex] at hmark
    cases hmark
  | @bool _ _ b hw hr => cases b <;> cases hlex
  | null hw hr => cases hlex
  | number hw ht hr => cases hlex
  | string hw hcs => exact ⟨_, _, hw, hcs, rfl, rfl⟩

theorem next_end (h : next c = some (lex, d)) (hlex : lex.type = .end) : IsWs c := by
  cases next_sound h (by simp [hlex]) with
  | «end» hw => exact hw
  | mark hw hb =>
    have hmark := punctuation_markOf hb
    dsimp only at hlex
    rw [hlex] at hmark
    cases hmark
  | @bool _ _ b hw hr => cases b <;> cases hlex
  | null hw hr => cases hlex
  | number hw ht hr => cases hlex
  | string hw hcs => cases hlex

/-- What stands behind the brace that opens an object. -/
def ObjectBody (js : List (List JsonChar × Json)) (c r : Bytes) : Prop :=
  (js = [] ∧ ∃ w, IsWs w ∧ c = w ++ endObject :: r) ∨ Members js c r

section Objects

variable {S : Type} {member : JsonTy S → JsonValue → JsonCursor → ParsedValue}
  {meaning : JsonTy S → JsonValue → Json → Option JsonValue}

theorem dispatch_iff
    (hmember : ∀ ty dest v c r, member ty dest c = .ok (v, r) ↔
      ∃ j, Reads j c r ∧ meaning ty dest j = some v)
    (key : Bytes) (ms : List (JsonMember S)) :
    ∀ ds vs c r, dispatch member key ms ds c = some (.ok (vs, r)) ↔
      ∃ j, Reads j c r ∧ assignMember meaning key j ms ds = some vs := by
  induction ms with
  | nil =>
    intro ds vs c r
    simp [dispatch, assignMember]
  | cons m ms ih =>
    intro ds vs c r
    cases ds with
    | nil => simp [dispatch, assignMember]
    | cons d ds =>
      by_cases hname : key = m.name
      · simp only [dispatch, assignMember, hname, if_true, Option.some.injEq, bind_ok_iff,
          map_eq_some_iff]
        constructor
        · rintro ⟨⟨v⟩, hparse, hok⟩
          obtain ⟨rfl, rfl⟩ := Prod.mk.inj (Except.ok.inj hok)
          obtain ⟨j, hreads, hmeaning⟩ := (hmember _ _ _ _ _).mp hparse
          exact ⟨j, hreads, v, hmeaning, rfl⟩
        · rintro ⟨j, hreads, v, hmeaning, rfl⟩
          exact ⟨(v, r), (hmember _ _ _ _ _).mpr ⟨j, hreads, hmeaning⟩, rfl⟩
      · simp only [dispatch, assignMember, hname, if_false, map_eq_some_iff]
        constructor
        · rintro ⟨result, hresult, hok⟩
          rw [bind_ok_iff] at hok
          obtain ⟨⟨vs', r'⟩, rfl, hok⟩ := hok
          obtain ⟨rfl, rfl⟩ := Prod.mk.inj (Except.ok.inj hok)
          obtain ⟨j, hreads, hassign⟩ := (ih ds vs' c r').mp hresult
          exact ⟨j, hreads, vs', hassign, rfl⟩
        · rintro ⟨j, hreads, vs', hassign, rfl⟩
          exact ⟨_, (ih ds vs' c r).mpr ⟨j, hreads, hassign⟩, rfl⟩

theorem objectLoop_sound
    (hmember : ∀ ty dest v c r, member ty dest c = .ok (v, r) ↔
      ∃ j, Reads j c r ∧ meaning ty dest j = some v)
    (ms : List (JsonMember S)) (turns : Nat) :
    ∀ {ds vs c d r lex}, next c = some (lex, d) →
      objectLoop member ms turns ds lex d = .ok (vs, r) →
      ∃ js, Members js c r ∧ assignMembers meaning ms ds js = some vs := by
  induction turns with
  | zero =>
    intro ds vs c d r lex _ h
    cases h
  | succ turns ih =>
    intro ds vs c d r lex hnext h
    simp only [objectLoop] at h
    split at h
    · cases h
    split at h
    · cases h
    split at h
    · cases h
    rename_i hstring
    rw [not_not] at hstring
    obtain ⟨w, k, hw, hk, rfl, rfl⟩ := next_string hnext hstring
    simp only [bind_ok_iff] at h
    obtain ⟨key, hkey, ⟨lex₁, e⟩, hlex₁, h⟩ := h
    rw [nextLex_ok_iff] at hlex₁
    have hdecoded : decodedText k = some key := by
      rw [stringText_eq hk] at hkey
      split at hkey
      · cases hkey
      · rename_i s hs
        rw [hs, Except.ok.inj hkey]
    split at h
    · cases h
    rename_i hname
    rw [not_not] at hname
    obtain ⟨u, hu, rfl⟩ := next_mark hlex₁ (by rw [hname]; rfl)
    split at h
    · cases h
    rename_i result hdispatch
    simp only [bind_ok_iff] at h
    obtain ⟨⟨ds', c₁⟩, rfl, ⟨lex₂⟩, hlex₂, h⟩ := h
    rw [nextLex_ok_iff] at hlex₂
    obtain ⟨j, ⟨⟨v, b, rfl, hv, hvalue⟩⟩, hassign⟩ :=
      (dispatch_iff hmember key ms ds ds' e c₁).mp hdispatch
    split at h
    · rename_i hend
      obtain ⟨rfl, rfl⟩ := Prod.mk.inj (Except.ok.inj h)
      obtain ⟨w', hw', rfl⟩ := next_mark hlex₂ (by rw [hend]; rfl)
      refine ⟨[(k, j)], .last hw hk hu hv hvalue hw', ?_⟩
      simp [assignMembers, hdecoded, hassign]
    split at h
    · cases h
    split at h
    · cases h
    rename_i hsep
    rw [not_not] at hsep
    obtain ⟨w', hw', rfl⟩ := next_mark hlex₂ (by rw [hsep]; rfl)
    rw [bind_ok_iff] at h
    obtain ⟨⟨lex₃⟩, hlex₃, h⟩ := h
    rw [nextLex_ok_iff] at hlex₃
    obtain ⟨js, hmembers, hrest⟩ := ih hlex₃ h
    refine ⟨(k, j) :: js, .more hw hk hu hv hvalue hw' hmembers, ?_⟩
    simp [assignMembers, hdecoded, hassign, hrest]

/-- The members of an object begin with a name. -/
theorem members_head {js : List (List JsonChar × Json)} {c r : Bytes} (h : Members js c r) :
    ∃ w k d, IsWs w ∧ (∀ ch ∈ k, ch.Valid) ∧ c = w ++ (quoted k ++ d) := by
  cases h with
  | last hw hk hu hv hj hw' => exact ⟨_, _, _, hw, hk, rfl⟩
  | more hw hk hu hv hj hw' hms => exact ⟨_, _, _, hw, hk, rfl⟩

theorem objectLoop_complete
    (hmember : ∀ ty dest v c r, member ty dest c = .ok (v, r) ↔
      ∃ j, Reads j c r ∧ meaning ty dest j = some v)
    (ms : List (JsonMember S)) (js : List (List JsonChar × Json)) :
    ∀ {turns ds vs c d r lex}, Members js c r → assignMembers meaning ms ds js = some vs →
      next c = some (lex, d) → d.length < turns →
      objectLoop member ms turns ds lex d = .ok (vs, r) := by
  induction js with
  | nil =>
    intro turns ds vs c d r lex h
    cases h
  | cons head js ih =>
    intro turns ds vs c d r lex h hassign hnext hturns
    obtain ⟨turns, rfl⟩ := Nat.exists_eq_succ_of_ne_zero (Nat.ne_of_gt (Nat.zero_lt_of_lt hturns))
    obtain ⟨k, j⟩ := head
    obtain ⟨key, hdecoded, hassign⟩ := bind_eq_some_iff.mp hassign
    obtain ⟨ds', hstored, hassign⟩ := bind_eq_some_iff.mp hassign
    have hkey : ∀ hk : ∀ ch ∈ k, ch.Valid,
        stringText ⟨.string, quoted k, k.any JsonChar.isEscape⟩ = .ok key := by
      intro hk
      rw [stringText_eq hk, hdecoded]
    cases h with
    | @last _ _ w u v b w' _ hw hk hu hv hj hw' =>
      obtain ⟨rfl, rfl⟩ := next_det hnext (next_complete (.string hw hk))
      have hcolon := nextLex_ok_iff.mpr (next_of_mark .nameSeparator (r := v ++ b) hu rfl)
      have hclose := nextLex_ok_iff.mpr (next_of_mark .endObject (r := r) hw' rfl)
      have hdispatch := (dispatch_iff hmember key ms ds ds' (v ++ b) (w' ++ endObject :: r)).mpr
        ⟨j, ⟨⟨v, b, rfl, hv, hj⟩, fun _ => terminated_ws hw' (by decide)⟩, hstored⟩
      obtain rfl := Option.some.inj hassign
      simp only [objectLoop, reduceCtorEq, if_false, ne_eq, not_true_eq_false, bind_ok_iff]
      refine ⟨key, hkey hk, _, hcolon, ?_⟩
      simp only [not_true_eq_false, if_false, hdispatch, bind_ok_iff]
      exact ⟨_, rfl, _, hclose, rfl⟩
    | @more _ _ _ w u v b w' e _ hw hk hu hv hj hw' hms =>
      obtain ⟨rfl, rfl⟩ := next_det hnext (next_complete (.string hw hk))
      have hcolon := nextLex_ok_iff.mpr (next_of_mark .nameSeparator (r := v ++ b) hu rfl)
      have hsep := nextLex_ok_iff.mpr (next_of_mark .valueSeparator (r := e) hw' rfl)
      have hdispatch := (dispatch_iff hmember key ms ds ds' (v ++ b) (w' ++ valueSeparator :: e)).mpr
        ⟨j, ⟨⟨v, b, rfl, hv, hj⟩, fun _ => terminated_ws hw' (by decide)⟩, hstored⟩
      obtain ⟨lex', d', hlex', hnext'⟩ := nextLex_total e
      have hshort : d'.length < e.length := by
        obtain ⟨w₁, k₁, d₁, hw₁, hk₁, rfl⟩ := members_head hms
        obtain ⟨rfl, rfl⟩ := next_det hnext' (next_complete (.string hw₁ hk₁))
        simp only [quoted, List.length_append, List.length_cons]
        omega
      have hlen := value_length hj
      have further := @ih turns _ _ _ _ _ _ hms hassign hnext' (by
        simp only [List.length_append, List.length_cons] at hlen hturns
        omega)
      simp only [objectLoop, reduceCtorEq, if_false, ne_eq, not_true_eq_false, bind_ok_iff]
      refine ⟨key, hkey hk, _, hcolon, ?_⟩
      simp only [not_true_eq_false, if_false, hdispatch, bind_ok_iff]
      refine ⟨_, rfl, _, hsep, ?_⟩
      simp only [reduceCtorEq, not_true_eq_false, if_false, bind_ok_iff]
      exact ⟨_, hlex', further⟩

end Objects

end JobJson
