import OddBuilder.Json.Loops

/-!
# The parser implements the grammar

The whole parser, by induction on the levels of nesting that are left: it
accepts the texts of the trees that have a meaning for the destination, and
stores what they mean.
-/

namespace JobJson

open JsonLexer

section Values

variable {S : Type} {schema : JsonSchema S}
  {parse : JsonTy S → JsonValue → JsonLex → JsonCursor → ParsedValue}
  {meaning : JsonTy S → JsonValue → Json → Option JsonValue}

theorem parseObject_iff (impl : ∀ ty dest, Implements (parse ty dest) (meaning ty dest))
    (c : Bytes) (ty : JsonTy S) (dest v : JsonValue) (r : Bytes) :
    parseObject schema parse ty dest c = .ok (v, r) ↔
      ∃ js, ObjectBody js c r ∧ assignObject schema meaning js ty dest = some v := by
  have hmember := parseNext_iff impl
  unfold parseObject assignObject
  split
  · rename_i s ds
    simp only [bind_ok_iff, Option.map_eq_some_iff]
    constructor
    · rintro ⟨⟨lex⟩, hlex, h⟩
      rw [nextLex_ok_iff] at hlex
      split at h
      · rename_i hend
        obtain ⟨rfl, rfl⟩ := Prod.mk.inj (Except.ok.inj h)
        exact ⟨[], Or.inl ⟨rfl, next_mark hlex (by rw [hend]; rfl)⟩, ds, rfl, rfl⟩
      · rw [bind_ok_iff] at h
        obtain ⟨⟨vs⟩, hloop, h⟩ := h
        obtain ⟨rfl, rfl⟩ := Prod.mk.inj (Except.ok.inj h)
        obtain ⟨js, hmembers, hassign⟩ := objectLoop_sound hmember _ _ hlex hloop
        exact ⟨js, Or.inr hmembers, vs, hassign, rfl⟩
    · rintro ⟨js, ⟨rfl, w, hw, rfl⟩ | hmembers, vs, hassign, rfl⟩
      · obtain rfl := Option.some.inj hassign
        exact ⟨_, nextLex_ok_iff.mpr (next_of_mark .endObject (r := r) hw rfl), rfl⟩
      · obtain ⟨lex, d, hlex, hnext⟩ := nextLex_total c
        refine ⟨_, hlex, ?_⟩
        have hstring : lex.type = .string := by
          obtain ⟨w₁, k₁, d₁, hw₁, hk₁, rfl⟩ := members_head hmembers
          obtain ⟨rfl⟩ := next_det hnext (next_complete (.string hw₁ hk₁))
          rfl
        simp only [hstring, reduceCtorEq, if_false, bind_ok_iff]
        exact ⟨_, objectLoop_complete hmember _ js hmembers hassign hnext (Nat.lt_succ_self _), rfl⟩
  · simp [fail]

/-- The items of a container become its value in both halves. -/
theorem items_iff {kind : JsonItems} {items : ParsedItems} {c r : Bytes} {v : JsonValue}
    {assigned : List Json → Option (List JsonValue)}
    (h : ∀ vs, items = .ok (vs, r) ↔ ∃ js, ArrayBody js c r ∧ assigned js = some vs) :
    ((do
        let (vs, c) ← items
        .ok (JsonValue.items kind vs, c) : ParsedValue) = .ok (v, r)) ↔
      ∃ js, ArrayBody js c r ∧ (assigned js).map (JsonValue.items kind) = some v := by
  simp only [bind_ok_iff, Option.map_eq_some_iff]
  constructor
  · rintro ⟨⟨vs⟩, hitems, hok⟩
    obtain ⟨rfl, rfl⟩ := Prod.mk.inj (Except.ok.inj hok)
    obtain ⟨js, hbody, hassigned⟩ := (h vs).mp hitems
    exact ⟨js, hbody, vs, hassigned, rfl⟩
  · rintro ⟨js, hbody, vs, hassigned, rfl⟩
    exact ⟨(vs, r), (h vs).mpr ⟨js, hbody, hassigned⟩, rfl⟩

theorem parseArray_iff (impl : ∀ ty dest, Implements (parse ty dest) (meaning ty dest))
    (c : Bytes) (ty : JsonTy S) (dest v : JsonValue) (r : Bytes) :
    parseArray schema parse ty dest c = .ok (v, r) ↔
      ∃ js, ArrayBody js c r ∧ assignArray schema meaning js ty dest = some v := by
  unfold parseArray assignArray
  split
  · rename_i container key mapped
    simp only [parseMap]
    cases schema.defaultValue key with
    | none => simp [fail]
    | some k =>
      cases schema.defaultValue mapped with
      | none => simp [fail]
      | some m =>
        exact items_iff fun vs => parseGrowing_iff (parseEntry_implements impl _ _ _ _) c r vs
  · exact items_iff fun vs => parseFixedSequence_iff (fun d => impl _ d) _ vs c r
  · rename_i ty
    simp only [parsePushBackSequence]
    cases schema.defaultValue ty with
    | none => simp [fail]
    | some initial => exact items_iff fun vs => parseGrowing_iff (impl ty initial) c r vs
  · rename_i container ty
    simp only [parseInsertSequence]
    cases schema.defaultValue ty with
    | none => simp [fail]
    | some initial => exact items_iff fun vs => parseGrowing_iff (impl ty initial) c r vs
  · simp [fail]

end Values

section Values

variable {S : Type} (schema : JsonSchema S)

/-- One level of the parser, over the levels inside. -/
theorem parseValue_sound (levels : Nat) (ty : JsonTy S) (dest : JsonValue)
    (inner : ∀ fewer, levels = fewer + 1 → ∀ ty dest,
      Implements (parseValue schema fewer ty dest) (assign schema fewer ty dest))
    {c d r : Bytes} {lex : JsonLex} {v : JsonValue} (hnext : next c = some (lex, d))
    (h : parseValue schema levels ty dest lex d = .ok (v, r)) :
    ∃ j, Reads j c r ∧ assign schema levels ty dest j = some v := by
  unfold parseValue at h
  by_cases hvalid : lex.type = .invalid
  · simp [hvalid, fail] at h
  cases next_sound hnext hvalid with
  | «end» hw => cases h
  | @mark w _ b type hw hb =>
    have hmark := punctuation_markOf hb
    cases type with
    | beginObject =>
      obtain rfl := Option.some.inj hmark
      cases levels with
      | zero => cases h
      | succ levels =>
        obtain ⟨js, hbody, hassign⟩ :=
          (withValue_iff (parseObject_iff (inner levels rfl) d) ty dest v r).mp h
        refine ⟨.object js, ⟨⟨w, _, rfl, hw, ?_⟩, by simp [Json.isOpenEnded]⟩, ?_⟩
        · rcases hbody with ⟨rfl, u, hu, rfl⟩ | hmembers
          · exact .emptyObject hu
          · exact .object hmembers
        · rwa [assign_object_succ]
    | beginArray =>
      obtain rfl := Option.some.inj hmark
      cases levels with
      | zero => cases h
      | succ levels =>
        obtain ⟨js, hbody, hassign⟩ :=
          (withValue_iff (parseArray_iff (inner levels rfl) d) ty dest v r).mp h
        refine ⟨.array js, ⟨⟨w, _, rfl, hw, ?_⟩, by simp [Json.isOpenEnded]⟩, ?_⟩
        · rcases hbody with ⟨rfl, u, hu, rfl⟩ | helements
          · exact .emptyArray hu
          · exact .array helements
        · rwa [assign_array_succ]
    | endObject => cases h
    | endArray => cases h
    | nameSeparator => cases h
    | valueSeparator => cases h
    | string => cases hmark
    | number => cases hmark
    | «true» => cases hmark
    | «false» => cases hmark
    | null => cases hmark
    | «end» => cases hmark
    | invalid => cases hmark
  | @bool w _ b hw hr =>
    have hstore : storeScalar schema (storeBoolean b) ty dest d = .ok (v, r) := by
      cases b <;> exact h
    obtain ⟨rfl⟩ := (storeScalar_iff _ _ _ _ _ _ _).mp hstore
    exact ⟨.bool b, ⟨⟨w, _, rfl, hw, .bool⟩, fun _ => hr⟩, by rwa [assign_bool]⟩
  | @null w _ hw hr =>
    dsimp only at h
    split at h
    · rename_i hwrapper
      obtain ⟨rfl, rfl⟩ := Prod.mk.inj (Except.ok.inj h)
      refine ⟨.null, ⟨⟨w, _, rfl, hw, .null⟩, fun _ => hr⟩, ?_⟩
      simp [assign_null, hwrapper]
    · cases h
  | @number w t _ hw ht hr =>
    obtain ⟨rfl⟩ := (storeScalar_iff _ _ _ _ _ _ _).mp h
    exact ⟨.number t, ⟨⟨w, _, rfl, hw, .number ht⟩, fun _ => hr⟩, by rwa [assign_number]⟩
  | @string w _ cs hw hcs =>
    rw [stringText_eq hcs, bind_ok_iff] at h
    obtain ⟨s, hs, hstore⟩ := h
    obtain ⟨rfl, hassign⟩ := (storeScalar_iff _ _ _ _ _ _ _).mp hstore
    refine ⟨.string cs, ⟨⟨w, _, rfl, hw, .string hcs⟩, by simp [Json.isOpenEnded]⟩, ?_⟩
    cases hdecoded : decodedText cs with
    | none => simp [hdecoded] at hs
    | some s' =>
      simp only [hdecoded, Except.ok.injEq] at hs
      subst hs
      simp [assign_string, hdecoded, hassign]

theorem parseValue_complete (levels : Nat) (ty : JsonTy S) (dest : JsonValue)
    (inner : ∀ fewer, levels = fewer + 1 → ∀ ty dest,
      Implements (parseValue schema fewer ty dest) (assign schema fewer ty dest))
    {c d r : Bytes} {lex : JsonLex} {j : Json} {v : JsonValue} (hnext : next c = some (lex, d))
    (hreads : Reads j c r) (h : assign schema levels ty dest j = some v) :
    parseValue schema levels ty dest lex d = .ok (v, r) := by
  obtain ⟨⟨w, b, rfl, hw, hvalue⟩, hends⟩ := hreads
  unfold assign at h
  cases hvalue with
  | null =>
    obtain ⟨rfl, rfl⟩ := next_det hnext (next_complete (.null hw (hends rfl)))
    dsimp only at h
    split at h
    · rename_i hwrapper
      obtain rfl := Option.some.inj h
      unfold parseValue
      simp [hwrapper]
    · cases h
  | @bool b =>
    obtain ⟨rfl, rfl⟩ := next_det hnext (next_complete (.bool hw (hends rfl)))
    have hstore := (storeScalar_iff schema (storeBoolean b) ty dest v d d).mpr ⟨rfl, h⟩
    unfold parseValue
    cases b <;> exact hstore
  | number ht =>
    obtain ⟨rfl, rfl⟩ := next_det hnext (next_complete (.number hw ht (hends rfl)))
    unfold parseValue
    exact (storeScalar_iff schema _ ty dest v d d).mpr ⟨rfl, h⟩
  | @string cs _ hcs =>
    obtain ⟨rfl, rfl⟩ := next_det hnext (next_complete (.string hw hcs))
    obtain ⟨s, hdecoded, hassign⟩ := Option.bind_eq_some_iff.mp h
    unfold parseValue
    rw [stringText_eq hcs, hdecoded]
    exact bind_ok_iff.mpr ⟨s, rfl, (storeScalar_iff schema _ ty dest v d d).mpr ⟨rfl, hassign⟩⟩
  | emptyArray hw' =>
    obtain ⟨rfl, rfl⟩ := next_det hnext (next_of_mark .beginArray hw rfl)
    cases levels with
    | zero => cases h
    | succ levels =>
      exact (withValue_iff (parseArray_iff (inner levels rfl) _) ty dest v r).mpr
        ⟨[], Or.inl ⟨rfl, _, hw', rfl⟩, h⟩
  | @array js _ _ hjs =>
    obtain ⟨rfl, rfl⟩ := next_det hnext (next_of_mark .beginArray hw rfl)
    cases levels with
    | zero => cases h
    | succ levels =>
      exact (withValue_iff (parseArray_iff (inner levels rfl) _) ty dest v r).mpr
        ⟨js, Or.inr hjs, h⟩
  | emptyObject hw' =>
    obtain ⟨rfl, rfl⟩ := next_det hnext (next_of_mark .beginObject hw rfl)
    cases levels with
    | zero => cases h
    | succ levels =>
      exact (withValue_iff (parseObject_iff (inner levels rfl) _) ty dest v r).mpr
        ⟨[], Or.inl ⟨rfl, _, hw', rfl⟩, h⟩
  | @object ms _ _ hms =>
    obtain ⟨rfl, rfl⟩ := next_det hnext (next_of_mark .beginObject hw rfl)
    cases levels with
    | zero => cases h
    | succ levels =>
      exact (withValue_iff (parseObject_iff (inner levels rfl) _) ty dest v r).mpr
        ⟨ms, Or.inr hms, h⟩

/-- The parser of any type reads the grammar and stores what the tree means. -/
theorem parseValue_implements (levels : Nat) :
    ∀ ty dest, Implements (parseValue schema levels ty dest) (assign schema levels ty dest) := by
  induction levels with
  | zero =>
    intro ty dest
    have inner : ∀ fewer, 0 = fewer + 1 → ∀ ty dest,
        Implements (parseValue schema fewer ty dest) (assign schema fewer ty dest) := by
      intro fewer hfewer
      omega
    exact ⟨parseValue_sound schema 0 ty dest inner, parseValue_complete schema 0 ty dest inner⟩
  | succ levels ih =>
    intro ty dest
    have inner : ∀ fewer, levels + 1 = fewer + 1 → ∀ ty dest,
        Implements (parseValue schema fewer ty dest) (assign schema fewer ty dest) := by
      intro fewer hfewer
      obtain rfl := Nat.succ.inj hfewer
      exact ih
    exact ⟨parseValue_sound schema _ ty dest inner, parseValue_complete schema _ ty dest inner⟩

/-- A parse succeeds on the texts of the trees that fit the destination, and on no others. -/
theorem parse_ok_iff (maxDepth : Nat) (source : Bytes) (ty : JsonTy S) (dest v : JsonValue) :
    parse schema maxDepth source ty dest = .ok v ↔
      ∃ j, IsText j source ∧ assign schema maxDepth ty dest j = some v := by
  have impl := parseValue_implements schema maxDepth ty dest
  simp only [parse, bind_ok_iff]
  constructor
  · rintro ⟨⟨lex⟩, hlex, ⟨v', r⟩, hvalue, ⟨lex'⟩, hlex', h⟩
    rw [nextLex_ok_iff] at hlex hlex'
    obtain ⟨j, ⟨⟨w, b, rfl, hw, hj⟩⟩, hassign⟩ := impl.sound hlex hvalue
    split at h
    · cases h
    split at h
    · cases h
    rename_i hvalid hend
    rw [not_not] at hend
    obtain rfl := Except.ok.inj h
    refine ⟨j, ⟨w, b, r, rfl, hw, hj, ?_⟩, hassign⟩
    exact next_end hlex' hend
  · rintro ⟨j, ⟨w, b, w', rfl, hw, hj, hw'⟩, hassign⟩
    obtain ⟨lex, d, hlex, hnext⟩ := nextLex_total (w ++ b)
    have hreads : Reads j (w ++ b) w' := ⟨⟨w, b, rfl, hw, hj⟩, fun _ => terminated_end hw'⟩
    have hclose := nextLex_ok_iff.mpr (next_complete (Lexes.end hw'))
    refine ⟨_, hlex, _, impl.complete hnext hreads hassign, _, hclose, ?_⟩
    simp

end Values

end JobJson
