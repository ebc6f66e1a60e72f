import OddBuilder.Json.Conformance

/-!
# Acceptance and diagnostics

How a parse can stop. `StopsIn P` says that every stop of a computation
satisfies `P`; the loops have it from their elements, since each turn takes a
token and so no loop uses up its turns. What a plain destination accepts, and
that every refusal has a diagnostic, are put together at the end.
-/

namespace JobJson

open JsonLexer

/-- Every stop of the computation satisfies the predicate. -/
def StopsIn {α : Type} (P : Stop → Prop) (x : Except Stop α) : Prop :=
  ∀ stop, x = .error stop → P stop

section Stops

variable {α β : Type} {P : Stop → Prop}

theorem stopsIn_ok (a : α) : StopsIn P (.ok a : Except Stop α) := by
  intro stop h
  cases h

theorem stopsIn_bind {x : Except Stop α} {f : α → Except Stop β} (hx : StopsIn P x)
    (hf : ∀ a, x = .ok a → StopsIn P (f a)) : StopsIn P (x >>= f) := by
  intro stop h
  rcases bind_error_iff.mp h with h | ⟨a, ha, h⟩
  · exact hx stop h
  · exact hf a ha stop h

theorem stopsIn_nextLex (c : JsonCursor) : StopsIn P (nextLex c) := by
  obtain ⟨lex, d, h, _⟩ := nextLex_total c
  rw [h]
  exact stopsIn_ok _

end Stops

/-- The predicate allows every diagnostic but the default one. -/
def AllowsDiagnostics (P : Stop → Prop) : Prop :=
  ∀ code, code ≠ .none → P (.fail code)

theorem AllowsDiagnostics.fail {α : Type} {P : Stop → Prop} (hP : AllowsDiagnostics P)
    {code : JsonDiagnosticCode} (hcode : code ≠ .none) :
    StopsIn P (fail code : Except Stop α) := by
  rintro stop ⟨⟩
  exact hP code hcode

theorem next_length_le {c d : Bytes} {lex : JsonLex} (h : next c = some (lex, d))
    (hvalid : lex.type ≠ .invalid) : d.length ≤ c.length := by
  cases next_sound h hvalid <;>
    simp only [List.length_append, List.length_cons, List.length_nil] <;> omega

theorem separator_length_lt {c d : Bytes} {lex : JsonLex} (h : next c = some (lex, d))
    (hlex : lex.type = .valueSeparator) : d.length < c.length :=
  (next_sound h (by simp [hlex])).length_lt (by simp [hlex])

/-- The stops of a parser at the tokens that the lexer gives it. -/
def Answers (P : Stop → Prop) (element : JsonLex → JsonCursor → ParsedValue) : Prop :=
  ∀ {c d lex}, next c = some (lex, d) → StopsIn P (element lex d)

section Containers

variable {P : Stop → Prop} (hP : AllowsDiagnostics P)
  {element : JsonLex → JsonCursor → ParsedValue} {meaning : Json → Option JsonValue}
  {add : List JsonValue → JsonValue → List JsonValue}

include hP

/-- A turn that comes to the next one has used up a separator. -/
theorem sequenceLoop_stops (impl : Implements element meaning) (helement : Answers P element)
    (turns : Nat) :
    ∀ {vs c d lex}, next c = some (lex, d) → 0 < turns →
      (lex.type ≠ .invalid → d.length < turns) →
      StopsIn P (sequenceLoop element add turns vs lex d) := by
  induction turns with
  | zero =>
    intro vs c d lex _ hturns
    omega
  | succ turns ih =>
    intro vs c d lex hnext _ hturns
    refine stopsIn_bind (helement hnext) ?_
    rintro ⟨v, r⟩ hv
    obtain ⟨j, hreads, _⟩ := impl.sound hnext hv
    obtain ⟨hlength, hbegins⟩ := hreads.token hnext
    have hroom := hturns (beginsValue_ne hbegins rfl)
    refine stopsIn_bind (stopsIn_nextLex r) ?_
    rintro ⟨lex₁, c₁⟩ hlex₁
    rw [nextLex_ok_iff] at hlex₁
    dsimp only
    split
    · exact stopsIn_ok _
    split
    · exact hP.fail (by decide)
    split
    · exact hP.fail (by decide)
    rename_i hsep
    rw [not_not] at hsep
    have hshort := separator_length_lt hlex₁ hsep
    refine stopsIn_bind (stopsIn_nextLex c₁) ?_
    rintro ⟨lex₂⟩ hlex₂
    rw [nextLex_ok_iff] at hlex₂
    dsimp only
    split
    · exact hP.fail (by decide)
    refine ih hlex₂ (by omega) fun hvalid => ?_
    have hle := next_length_le hlex₂ hvalid
    omega

theorem parseGrowing_stops (impl : Implements element meaning) (helement : Answers P element)
    (c : Bytes) : StopsIn P (parseGrowing element add c) := by
  refine stopsIn_bind (stopsIn_nextLex c) ?_
  rintro ⟨lex⟩ hlex
  rw [nextLex_ok_iff] at hlex
  dsimp only
  split
  · exact stopsIn_ok _
  split
  · exact hP.fail (by decide)
  exact sequenceLoop_stops hP impl helement _ hlex (Nat.succ_pos _) fun _ => Nat.lt_succ_self _

theorem fixedLoop_stops {element : JsonValue → JsonLex → JsonCursor → ParsedValue}
    (ds : List JsonValue) (helement : ∀ d ∈ ds, Answers P (element d)) :
    ∀ {c d lex}, next c = some (lex, d) → StopsIn P (fixedLoop element ds lex d) := by
  induction ds with
  | nil =>
    intro c d lex _
    exact hP.fail (by decide)
  | cons dest ds ih =>
    intro c d lex hnext
    refine stopsIn_bind (helement dest (by simp) hnext) ?_
    rintro ⟨v, r⟩ _
    refine stopsIn_bind (stopsIn_nextLex r) ?_
    rintro ⟨lex₁, c₁⟩ _
    dsimp only
    split
    · split
      · exact stopsIn_ok _
      · exact hP.fail (by decide)
    split
    · exact hP.fail (by decide)
    split
    · exact hP.fail (by decide)
    refine stopsIn_bind (stopsIn_nextLex c₁) ?_
    rintro ⟨lex₂⟩ hlex₂
    rw [nextLex_ok_iff] at hlex₂
    split
    · exact hP.fail (by decide)
    split
    · exact hP.fail (by decide)
    refine stopsIn_bind (ih (fun d hd => helement d (by simp [hd])) hlex₂) ?_
    exact fun _ _ => stopsIn_ok _

theorem parseFixedSequence_stops {element : JsonValue → JsonLex → JsonCursor → ParsedValue}
    (ds : List JsonValue) (helement : ∀ d ∈ ds, Answers P (element d)) (c : Bytes) :
    StopsIn P (parseFixedSequence element ds c) := by
  refine stopsIn_bind (stopsIn_nextLex c) ?_
  rintro ⟨lex⟩ hlex
  rw [nextLex_ok_iff] at hlex
  dsimp only
  split
  · split
    · exact stopsIn_ok _
    · exact hP.fail (by decide)
  split
  · exact hP.fail (by decide)
  exact fixedLoop_stops hP ds helement hlex

theorem parseEntry_stops {key mapped : JsonCursor → ParsedValue}
    (hkey : ∀ c, StopsIn P (key c)) (hmapped : ∀ c, StopsIn P (mapped c)) :
    Answers P (parseEntry key mapped) := by
  intro c d lex _
  unfold parseEntry
  split
  · exact hP.fail (by decide)
  refine stopsIn_bind (hkey d) ?_
  rintro ⟨k, c₁⟩ _
  refine stopsIn_bind (stopsIn_nextLex c₁) ?_
  rintro ⟨lex₁, c₂⟩ _
  dsimp only
  split
  · exact hP.fail (by decide)
  split
  · exact hP.fail (by decide)
  refine stopsIn_bind (hmapped c₂) ?_
  rintro ⟨m, c₃⟩ _
  refine stopsIn_bind (stopsIn_nextLex c₃) ?_
  rintro ⟨lex₂⟩ _
  split
  · exact hP.fail (by decide)
  split
  · exact hP.fail (by decide)
  exact stopsIn_ok _

end Containers

section Objects

variable {S : Type} {P : Stop → Prop} (hP : AllowsDiagnostics P)
  {member : JsonTy S → JsonValue → JsonCursor → ParsedValue}
  {meaning : JsonTy S → JsonValue → Json → Option JsonValue}

theorem dispatch_stops (key : Bytes) (ms : List (JsonMember S))
    (hmember : ∀ m ∈ ms, ∀ d c, StopsIn P (member m.type d c)) :
    ∀ {ds c result}, dispatch member key ms ds c = some result → StopsIn P result := by
  induction ms with
  | nil =>
    intro ds c result h
    cases ds <;> cases h
  | cons m ms ih =>
    intro ds c result h
    cases ds with
    | nil => cases h
    | cons d ds =>
      simp only [dispatch] at h
      split at h
      · obtain rfl := Option.some.inj h
        refine stopsIn_bind (hmember m (by simp) d c) ?_
        exact fun _ _ => stopsIn_ok _
      · obtain ⟨result, hresult, rfl⟩ := Option.map_eq_some_iff.mp h
        refine stopsIn_bind (ih (fun m hm => hmember m (by simp [hm])) hresult) ?_
        exact fun _ _ => stopsIn_ok _

include hP

theorem stringText_stops {c d : Bytes} {lex : JsonLex} (hnext : next c = some (lex, d))
    (hlex : lex.type = .string) : StopsIn P (stringText lex) := by
  obtain ⟨w, cs, _, hcs, _, rfl⟩ := next_string hnext hlex
  rw [stringText_eq hcs]
  split
  · exact hP.fail (by decide)
  · exact stopsIn_ok _

theorem objectLoop_stops
    (impl : ∀ ty dest v c r, member ty dest c = .ok (v, r) ↔
      ∃ j, Reads j c r ∧ meaning ty dest j = some v)
    (ms : List (JsonMember S)) (hmember : ∀ m ∈ ms, ∀ d c, StopsIn P (member m.type d c))
    (turns : Nat) :
    ∀ {ds c d lex}, next c = some (lex, d) → 0 < turns →
      (lex.type ≠ .invalid → d.length < turns) →
      StopsIn P (objectLoop member ms turns ds lex d) := by
  induction turns with
  | zero =>
    intro ds c d lex _ hturns
    omega
  | succ turns ih =>
    intro ds c d lex hnext _ hturns
    unfold objectLoop
    split
    · exact hP.fail (by decide)
    split
    · exact hP.fail (by decide)
    rename_i hvalid
    split
    · exact hP.fail (by decide)
    rename_i hstring
    rw [not_not] at hstring
    refine stopsIn_bind (stringText_stops hP hnext hstring) ?_
    rintro key _
    refine stopsIn_bind (stopsIn_nextLex d) ?_
    rintro ⟨lex₁, e⟩ hlex₁
    rw [nextLex_ok_iff] at hlex₁
    dsimp only
    split
    · exact hP.fail (by decide)
    rename_i hname
    rw [not_not] at hname
    have hcolon := next_length_le hlex₁ (by simp [hname])
    cases hdispatch : dispatch member key ms ds e with
    | none => exact hP.fail (by decide)
    | some result =>
      refine stopsIn_bind (dispatch_stops key ms hmember hdispatch) ?_
      rintro ⟨ds', r⟩ rfl
      have hlength : r.length ≤ e.length := by
        obtain ⟨j, ⟨⟨w, b, rfl, _, hvalue⟩⟩, _⟩ := (dispatch_iff impl key ms ds ds' e r).mp hdispatch
        have hlt := value_length hvalue
        simp only [List.length_append]
        omega
      refine stopsIn_bind (stopsIn_nextLex r) ?_
      rintro ⟨lex₂, c₂⟩ hlex₂
      rw [nextLex_ok_iff] at hlex₂
      dsimp only at hlex₂ ⊢
      split
      · exact stopsIn_ok _
      split
      · exact hP.fail (by decide)
      split
      · exact hP.fail (by decide)
      rename_i hsep
      rw [not_not] at hsep
      have hshort := separator_length_lt hlex₂ hsep
      have hroom := hturns hvalid
      refine stopsIn_bind (stopsIn_nextLex c₂) ?_
      rintro ⟨lex₃⟩ hlex₃
      rw [nextLex_ok_iff] at hlex₃
      dsimp only
      refine ih hlex₃ (by omega) fun hvalid₃ => ?_
      have hle := next_length_le hlex₃ hvalid₃
      omega

end Objects

section Values

variable {S : Type} (schema : JsonSchema S) {P : Stop → Prop} (hP : AllowsDiagnostics P)

/-- Only a wrapper can be refused to be filled. -/
theorem withValue_stops {refused : Stop} {function : JsonTy S → JsonValue → ParsedValue}
    (hfunction : ∀ ty dest, P refused ∨ ty.Plain → StopsIn P (function ty dest))
    (ty : JsonTy S) :
    ∀ dest, P refused ∨ ty.Plain → StopsIn P (withValue schema refused function ty dest) := by
  induction ty with
  | wrapper w ty ih =>
    intro dest h
    have hrefused : P refused := h.elim id False.elim
    unfold withValue
    split
    · rintro stop ⟨⟩
      exact hrefused
    · refine stopsIn_bind (ih _ (Or.inl hrefused)) ?_
      exact fun _ _ => stopsIn_ok _
  | _ => exact hfunction _

include hP

theorem storeScalar_stops (store : JsonTy S → Option JsonValue) (ty : JsonTy S)
    (dest : JsonValue) (c : JsonCursor) : StopsIn P (storeScalar schema store ty dest c) := by
  refine withValue_stops schema ?_ ty dest (Or.inl (hP _ (by decide)))
  intro ty dest _
  split
  · exact hP.fail (by decide)
  · exact stopsIn_ok _

section Levels

variable {parse : JsonTy S → JsonValue → JsonLex → JsonCursor → ParsedValue}
  {meaning : JsonTy S → JsonValue → Json → Option JsonValue}
  (impl : ∀ ty dest, Implements (parse ty dest) (meaning ty dest))
  (hparse : ∀ ty dest, P (.fail .none) ∨ ty.Plain → Answers P (parse ty dest))

omit hP in
include hparse in
theorem parseNext_stops (ty : JsonTy S) (dest : JsonValue) (c : JsonCursor)
    (h : P (.fail .none) ∨ ty.Plain) : StopsIn P (parseNext parse ty dest c) := by
  refine stopsIn_bind (stopsIn_nextLex c) ?_
  rintro ⟨lex, d⟩ hlex
  rw [nextLex_ok_iff] at hlex
  exact hparse ty dest h hlex

include impl hparse

theorem parseObject_stops (hschema : P (.fail .none) ∨ schema.Plain) (ty : JsonTy S)
    (dest : JsonValue) (c : JsonCursor) : StopsIn P (parseObject schema parse ty dest c) := by
  unfold parseObject
  split
  · rename_i s ds
    refine stopsIn_bind (stopsIn_nextLex c) ?_
    rintro ⟨lex⟩ hlex
    rw [nextLex_ok_iff] at hlex
    dsimp only
    split
    · exact stopsIn_ok _
    have hmember : ∀ m ∈ schema.members s, ∀ dest c,
        StopsIn P (parseNext parse m.type dest c) := by
      intro m hm dest c
      exact parseNext_stops hparse m.type dest c (hschema.imp_right fun h => h s m hm)
    refine stopsIn_bind (objectLoop_stops hP (parseNext_iff impl) _ hmember _ hlex
      (Nat.succ_pos _) fun _ => Nat.lt_succ_self _) ?_
    exact fun _ _ => stopsIn_ok _
  · exact hP.fail (by decide)

theorem parseArray_stops (ty : JsonTy S) (dest : JsonValue) (c : JsonCursor)
    (h : P (.fail .none) ∨ ty.Plain) : StopsIn P (parseArray schema parse ty dest c) := by
  unfold parseArray
  split
  · have hany : P (.fail .none) := h.elim id False.elim
    unfold parseMap
    split
    · refine stopsIn_bind (parseGrowing_stops hP (parseEntry_implements impl _ _ _ _)
        (parseEntry_stops hP (fun c => parseNext_stops hparse _ _ c (Or.inl hany))
          fun c => parseNext_stops hparse _ _ c (Or.inl hany)) c) ?_
      exact fun _ _ => stopsIn_ok _
    · exact hP.fail (by decide)
  · rename_i size ty ds
    refine stopsIn_bind (parseFixedSequence_stops hP ds (fun d _ => hparse ty d h) c) ?_
    exact fun _ _ => stopsIn_ok _
  · rename_i ty
    unfold parsePushBackSequence
    split
    · exact hP.fail (by decide)
    · rename_i initial _
      refine stopsIn_bind (parseGrowing_stops hP (impl ty initial) (hparse ty initial h) c) ?_
      exact fun _ _ => stopsIn_ok _
  · rename_i container ty
    have hany : P (.fail .none) := h.elim id False.elim
    unfold parseInsertSequence
    split
    · exact hP.fail (by decide)
    · rename_i initial _
      refine stopsIn_bind (parseGrowing_stops hP (impl ty initial)
        (hparse ty initial (Or.inl hany)) c) ?_
      exact fun _ _ => stopsIn_ok _
  · exact hP.fail (by decide)

end Levels

theorem parseValue_stops_of_inner (hschema : P (.fail .none) ∨ schema.Plain) (levels : Nat)
    (inner : ∀ fewer, levels = fewer + 1 → ∀ ty dest, P (.fail .none) ∨ ty.Plain →
      Answers P (parseValue schema fewer ty dest))
    (ty : JsonTy S) (dest : JsonValue) (h : P (.fail .none) ∨ ty.Plain) :
    Answers P (parseValue schema levels ty dest) := by
  intro c d lex hnext
  unfold parseValue
  cases hlex : lex.type with
  | null =>
    dsimp only
    split
    · exact stopsIn_ok _
    · exact hP.fail (by decide)
  | «true» => exact storeScalar_stops schema hP _ ty dest d
  | «false» => exact storeScalar_stops schema hP _ ty dest d
  | number => exact storeScalar_stops schema hP _ ty dest d
  | string =>
    refine stopsIn_bind (stringText_stops hP hnext hlex) ?_
    exact fun s _ => storeScalar_stops schema hP _ ty dest d
  | beginObject =>
    cases levels with
    | zero => exact hP.fail (by decide)
    | succ levels =>
      refine withValue_stops schema ?_ ty dest h
      exact fun ty dest _ => parseObject_stops schema hP (parseValue_implements schema levels)
        (inner levels rfl) hschema ty dest d
  | beginArray =>
    cases levels with
    | zero => exact hP.fail (by decide)
    | succ levels =>
      refine withValue_stops schema ?_ ty dest h
      exact fun ty dest h => parseArray_stops schema hP (parseValue_implements schema levels)
        (inner levels rfl) ty dest d h
  | _ => exact hP.fail (by decide)

theorem parseValue_stops (hschema : P (.fail .none) ∨ schema.Plain) (levels : Nat) :
    ∀ ty dest, P (.fail .none) ∨ ty.Plain → Answers P (parseValue schema levels ty dest) := by
  induction levels with
  | zero => exact parseValue_stops_of_inner schema hP hschema 0 (by omega)
  | succ levels ih =>
    refine parseValue_stops_of_inner schema hP hschema (levels + 1) ?_
    rintro fewer ⟨⟩
    exact ih

theorem parse_stops (hschema : P (.fail .none) ∨ schema.Plain) (maxDepth : Nat) (source : Bytes)
    (ty : JsonTy S) (dest : JsonValue) (h : P (.fail .none) ∨ ty.Plain) :
    StopsIn P (parse schema maxDepth source ty dest) := by
  refine stopsIn_bind (stopsIn_nextLex source) ?_
  rintro ⟨lex⟩ hlex
  rw [nextLex_ok_iff] at hlex
  refine stopsIn_bind (parseValue_stops schema hP hschema maxDepth ty dest h hlex) ?_
  rintro ⟨v, c₁⟩ _
  refine stopsIn_bind (stopsIn_nextLex c₁) ?_
  rintro ⟨lex₁⟩ _
  dsimp only
  split
  · exact hP.fail (by decide)
  split
  · exact hP.fail (by decide)
  · exact stopsIn_ok _

end Values

variable {S : Type}

/-- Whatever the type and the source, no loop is endless and nothing is read past the end. -/
theorem parse_never_faults (schema : JsonSchema S) (maxDepth : Nat) (source : Bytes)
    (ty : JsonTy S) (dest : JsonValue) : parse schema maxDepth source ty dest ≠ .error .fault := by
  intro h
  have hstops := parse_stops schema (P := fun stop => stop ≠ .fault) (by simp [AllowsDiagnostics])
    (Or.inl (by simp)) maxDepth source ty dest (Or.inl (by simp))
  exact hstops .fault h rfl

/-- A stop with a diagnostic other than the default one. -/
def Stop.Diagnosed : Stop → Prop
  | .fault => False
  | .fail code => code ≠ .none

/-- A plain destination accepts the texts of the trees of its shape, nested within the limit, and no
others; every refusal is a diagnostic. -/
theorem parse_accepts_iff (schema : JsonSchema S) (hschema : schema.Plain) (maxDepth : Nat)
    (source : Bytes) (ty : JsonTy S) (hty : ty.Plain) (dest : JsonValue)
    (hdest : Typed schema.members ty dest) :
    ((∃ v, parse schema maxDepth source ty dest = .ok v) ↔
      ∃ j, IsText j source ∧ Conforms schema ty j ∧ j.nesting ≤ maxDepth) ∧
    ∀ stop, parse schema maxDepth source ty dest = .error stop → stop.Diagnosed := by
  constructor
  · constructor
    · rintro ⟨v, h⟩
      obtain ⟨j, htext, hassign⟩ := (parse_ok_iff schema maxDepth source ty dest v).mp h
      obtain ⟨_, hfits⟩ := assign_sound hschema maxDepth ty dest j v hty hdest hassign
      exact ⟨j, htext, hfits⟩
    · rintro ⟨j, htext, hconforms, hnesting⟩
      obtain ⟨v, hassign⟩ := assign_complete hschema hconforms maxDepth dest hty hdest hnesting
      exact ⟨v, (parse_ok_iff schema maxDepth source ty dest v).mpr ⟨j, htext, hassign⟩⟩
  · exact parse_stops schema (P := Stop.Diagnosed) (fun code hcode => hcode) (Or.inr hschema)
      maxDepth source ty dest (Or.inr hty)

def sampleSchema : JsonSchema Unit where
  members := fun _ => [⟨[97], .pushBack (.integer ⟨false, .w8⟩)⟩]
  initial := fun _ => none
  initial_typed := by simp

/-- The text `{"a":[7, 0]}` in a struct of one vector. -/
theorem parse_accepts_sample :
    Typed sampleSchema.members (.struct ()) (.items .object [.items .sequence []]) ∧
    (∃ j, IsText j [123, 34, 97, 34, 58, 91, 55, 44, 32, 48, 93, 125] ∧
      Conforms sampleSchema (.struct ()) j ∧ j.nesting ≤ 2) ∧
    ∀ stop, parse sampleSchema 1 [123, 34, 97, 34, 58, 91, 55, 44, 32, 48, 93, 125] (.struct ())
      (.items .object [.items .sequence []]) = .error stop → stop.Diagnosed := by
  have hschema : sampleSchema.Plain := by
    intro s m hm
    obtain rfl := List.mem_singleton.mp hm
    trivial
  have hdest : Typed sampleSchema.members (.struct ()) (.items .object [.items .sequence []]) :=
    typed_struct_iff.mpr (.cons (.pushBack (by simp)) .nil)
  refine ⟨hdest, ?_, ?_⟩
  · exact (parse_accepts_iff sampleSchema hschema 2 _ (.struct ()) trivial _ hdest).1.mp ⟨_, rfl⟩
  · exact (parse_accepts_iff sampleSchema hschema 1 _ (.struct ()) trivial _ hdest).2

/-- An integer in range is refused by an unsigned type for its sign, and an array by a vector whose
elements cannot be made. -/
theorem minus_zero_refused :
    (IsText (.number [minus, zero]) [minus, zero] ∧ IntegerOf ⟨false, .w8⟩ [minus, zero] ∧
      ∀ v, parse sampleSchema 0 [minus, zero] (.integer ⟨false, .w8⟩) (.integer 0) ≠ .ok v) ∧
    IsText (.array []) [beginArray, endArray] ∧
      ∀ v, parse sampleSchema 1 [beginArray, endArray] (.pushBack (.struct ()))
        (.items .sequence []) ≠ .ok v := by
  have nows : IsWs [] := by simp [IsWs]
  have hnumber : IsNumber [minus, zero] :=
    ⟨[minus], [zero], [], [], rfl, Or.inr rfl, Or.inl rfl, Or.inl rfl, Or.inl rfl⟩
  refine ⟨⟨?_, ?_, ?_⟩, ?_, ?_⟩
  · exact ⟨[], _, [], rfl, nows, Value.number (r := []) hnumber, nows⟩
  · exact ⟨true, [zero], ⟨rfl, isDigits_zero⟩, by decide⟩
  · rintro v ⟨⟩
  · exact ⟨[], _, [], rfl, nows, Value.emptyArray (w := []) nows, nows⟩
  · rintro v ⟨⟩

end JobJson
