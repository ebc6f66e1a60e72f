import OddBuilder.Json.Implements

/-!
# Which trees fit a type

For the types without wrappers, sets, maps and enums. `Conforms` says which
syntax trees have the shape of a type; that it is exactly these, and nested no
deeper than the limit, which `assign` takes is shown by induction on the levels
of nesting that are left. A destination stays a value of its type on the way,
which is what the members and elements that are written in place rely on.
-/

namespace JobJson

open Option

mutual

/-- How many arrays and objects stand in one another. -/
def Json.nesting : Json → Nat
  | .array js => elementsNesting js + 1
  | .object ms => membersNesting ms + 1
  | _ => 0

def elementsNesting : List Json → Nat
  | [] => 0
  | j :: js => max j.nesting (elementsNesting js)

def membersNesting : List (List JsonChar × Json) → Nat
  | [] => 0
  | (_, j) :: ms => max j.nesting (membersNesting ms)

end

theorem elementsNesting_le {levels : Nat} {js : List Json} :
    elementsNesting js ≤ levels ↔ ∀ j ∈ js, j.nesting ≤ levels := by
  induction js with
  | nil => simp [elementsNesting]
  | cons j js ih => simp [elementsNesting, ih]

theorem membersNesting_le {levels : Nat} {ms : List (List JsonChar × Json)} :
    membersNesting ms ≤ levels ↔ ∀ p ∈ ms, p.2.nesting ≤ levels := by
  induction ms with
  | nil => simp [membersNesting]
  | cons p ms ih => simp [membersNesting, ih]

/-- Inside an array one level less is left. -/
theorem nesting_array_le {levels : Nat} {js : List Json} (h : (Json.array js).nesting ≤ levels) :
    ∃ fewer, levels = fewer + 1 ∧ ∀ j ∈ js, j.nesting ≤ fewer := by
  obtain ⟨fewer, rfl⟩ := Nat.exists_eq_add_of_le' (Nat.le_trans (Nat.le_add_left 1 _) h)
  exact ⟨fewer, rfl, elementsNesting_le.mp (Nat.le_of_succ_le_succ h)⟩

theorem nesting_object_le {levels : Nat} {ms : List (List JsonChar × Json)}
    (h : (Json.object ms).nesting ≤ levels) :
    ∃ fewer, levels = fewer + 1 ∧ ∀ p ∈ ms, p.2.nesting ≤ fewer := by
  obtain ⟨fewer, rfl⟩ := Nat.exists_eq_add_of_le' (Nat.le_trans (Nat.le_add_left 1 _) h)
  exact ⟨fewer, rfl, membersNesting_le.mp (Nat.le_of_succ_le_succ h)⟩

variable {S : Type}

/-- Bools, integers, owned strings, vectors, fixed arrays and structs. -/
def JsonTy.Plain : JsonTy S → Prop
  | .bool => True
  | .integer _ => True
  | .string => True
  | .pushBack ty => ty.Plain
  | .fixed _ ty => ty.Plain
  | .struct _ => True
  | _ => False

def JsonSchema.Plain (schema : JsonSchema S) : Prop :=
  ∀ s, ∀ m ∈ schema.members s, m.type.Plain

/-- The member that a name in the source stands for. -/
def JsonSchema.member (schema : JsonSchema S) (s : S) (k : List JsonChar) :
    Option (JsonMember S) :=
  (decodedText k).bind fun key => (schema.members s).find? fun m => decide (key = m.name)

/-- An integer literal without fraction and exponent, in the range of the type. -/
def IntegerOf (k : JsonInteger) (t : Bytes) : Prop :=
  ∃ negative ds, IsIntegerLiteral t negative ds ∧ k.InRange (signedValue negative ds)

/-- The shape of a tree matches the type. -/
inductive Conforms (schema : JsonSchema S) : JsonTy S → Json → Prop
  | bool (b : Bool) : Conforms schema .bool (.bool b)
  | integer {k : JsonInteger} {t : Bytes} (h : IntegerOf k t)
      (hunsigned : k.signed = false → t.head? ≠ some minus) :
      Conforms schema (.integer k) (.number t)
  | string {cs : List JsonChar} (h : SurrogatesPaired cs) : Conforms schema .string (.string cs)
  | pushBack {ty : JsonTy S} {js : List Json} (hmake : (schema.defaultValue ty).isSome = true)
      (h : ∀ j ∈ js, Conforms schema ty j) : Conforms schema (.pushBack ty) (.array js)
  | fixed {size : Nat} {ty : JsonTy S} {js : List Json} (hsize : js.length = size)
      (h : ∀ j ∈ js, Conforms schema ty j) : Conforms schema (.fixed size ty) (.array js)
  | struct {s : S} {ms : List (List JsonChar × Json)}
      (hknown : ∀ p ∈ ms, (schema.member s p.1).isSome = true)
      (h : ∀ p ∈ ms, ∀ m, schema.member s p.1 = some m → Conforms schema m.type p.2) :
      Conforms schema (.struct s) (.object ms)

theorem parseInteger_isSome_iff (k : JsonInteger) (t : Bytes) :
    (∃ n, parseInteger k t = some n) ↔
      IntegerOf k t ∧ (k.signed = false → t.head? ≠ some minus) := by
  constructor
  · rintro ⟨n, h⟩
    obtain ⟨negative, ds, hliteral, rfl, hrange, hsigned⟩ := (parseInteger_iff k t n).mp h
    refine ⟨⟨negative, ds, hliteral, hrange⟩, ?_⟩
    intro hunsigned hminus
    cases negative with
    | true => simp [hsigned rfl] at hunsigned
    | false =>
      obtain ⟨rfl, _, hall⟩ := hliteral
      exact isDigit_ne_minus (hall minus (List.mem_of_mem_head? hminus)) rfl
  · rintro ⟨⟨negative, ds, hliteral, hrange⟩, hunsigned⟩
    refine ⟨signedValue negative ds, (parseInteger_iff k t _).mpr
      ⟨negative, ds, hliteral, rfl, hrange, ?_⟩⟩
    rintro rfl
    by_contra hsigned
    exact hunsigned (by simpa using hsigned) (by simp [hliteral.1])

theorem withInner_eq (schema : JsonSchema S)
    (store : JsonTy S → JsonValue → Option JsonValue) {ty : JsonTy S} (h : ty.Plain)
    (dest : JsonValue) : withInner schema store ty dest = store ty dest := by
  cases ty with
  | wrapper w ty => exact h.elim
  | _ => rfl

theorem typed_struct_iff {members : S → List (JsonMember S)} {s : S} {vs : List JsonValue} :
    Typed members (.struct s) (.items .object vs) ↔
      List.Forall₂ (fun m v => Typed members m.type v) (members s) vs := by
  rw [List.forall₂_iff_zip]
  constructor
  · intro h
    cases h with
    | struct hlength h => exact ⟨hlength.symm, fun hp => h _ hp⟩
  · rintro ⟨hlength, h⟩
    exact .struct hlength.symm fun p hp => h hp

section Loops

variable {fits : JsonValue → Prop} {shape : Json → Prop}

theorem assignAll_sound {element : Json → Option JsonValue}
    (h : ∀ j v, element j = some v → fits v ∧ shape j) (js : List Json) :
    ∀ {vs us}, (∀ v ∈ vs, fits v) →
      assignAll element (fun vs v => vs ++ [v]) vs js = some us →
      (∀ v ∈ us, fits v) ∧ ∀ j ∈ js, shape j := by
  induction js with
  | nil =>
    intro vs us hvs hassign
    obtain rfl := Option.some.inj hassign
    exact ⟨hvs, by simp⟩
  | cons j js ih =>
    intro vs us hvs hassign
    obtain ⟨v, hv, hassign⟩ := bind_eq_some_iff.mp hassign
    obtain ⟨hfits, hshape⟩ := h j v hv
    obtain ⟨hus, hjs⟩ := ih (by
      intro u hu
      rcases List.mem_append.mp hu with hu | hu
      · exact hvs u hu
      · rw [List.mem_singleton.mp hu]
        exact hfits) hassign
    exact ⟨hus, List.forall_mem_cons.mpr ⟨hshape, hjs⟩⟩

theorem assignAll_complete {element : Json → Option JsonValue}
    (add : List JsonValue → JsonValue → List JsonValue) (js : List Json) :
    ∀ vs, (∀ j ∈ js, ∃ v, element j = some v) → ∃ us, assignAll element add vs js = some us := by
  induction js with
  | nil => exact fun vs _ => ⟨vs, rfl⟩
  | cons j js ih =>
    intro vs h
    obtain ⟨v, hv⟩ := h j (by simp)
    obtain ⟨us, hus⟩ := ih (add vs v) fun j hj => h j (by simp [hj])
    exact ⟨us, by simp [assignAll, hv, hus]⟩

theorem assignFixed_sound {element : JsonValue → Json → Option JsonValue}
    (h : ∀ d j v, fits d → element d j = some v → fits v ∧ shape j) (ds : List JsonValue) :
    ∀ {js vs}, (∀ d ∈ ds, fits d) → assignFixed element ds js = some vs →
      vs.length = ds.length ∧ js.length = ds.length ∧ (∀ v ∈ vs, fits v) ∧ ∀ j ∈ js, shape j := by
  induction ds with
  | nil =>
    intro js vs _ hassign
    cases js with
    | nil =>
      obtain rfl := Option.some.inj hassign
      simp
    | cons j js => cases hassign
  | cons d ds ih =>
    intro js vs hds hassign
    cases js with
    | nil => cases hassign
    | cons j js =>
      obtain ⟨v, hv, hassign⟩ := bind_eq_some_iff.mp hassign
      obtain ⟨us, hus, rfl⟩ := map_eq_some_iff.mp hassign
      obtain ⟨hfits, hshape⟩ := h d j v (hds d (by simp)) hv
      obtain ⟨hvs, hjs, hfitsAll, hshapeAll⟩ := ih (fun d hd => hds d (by simp [hd])) hus
      exact ⟨by simp [hvs], by simp [hjs], List.forall_mem_cons.mpr ⟨hfits, hfitsAll⟩,
        List.forall_mem_cons.mpr ⟨hshape, hshapeAll⟩⟩

theorem assignFixed_complete {element : JsonValue → Json → Option JsonValue}
    (ds : List JsonValue) : ∀ {js}, (∀ d ∈ ds, fits d) → js.length = ds.length →
      (∀ d j, fits d → j ∈ js → ∃ v, element d j = some v) →
      ∃ vs, assignFixed element ds js = some vs := by
  induction ds with
  | nil =>
    intro js _ hlength _
    obtain rfl := List.length_eq_zero_iff.mp hlength
    exact ⟨[], rfl⟩
  | cons d ds ih =>
    intro js hds hlength h
    cases js with
    | nil => simp at hlength
    | cons j js =>
      obtain ⟨v, hv⟩ := h d j (hds d (by simp)) (by simp)
      obtain ⟨vs, hvs⟩ := @ih js (fun d hd => hds d (by simp [hd])) (by simpa using hlength)
        fun d j hd hj => h d j hd (by simp [hj])
      exact ⟨v :: vs, by simp [assignFixed, hv, hvs]⟩

end Loops

section Members

variable {fits : JsonTy S → JsonValue → Prop} {shape : JsonTy S → Json → Prop}
  {member : JsonTy S → JsonValue → Json → Option JsonValue}

theorem assignMember_sound {key : Bytes} {j : Json} (ms : List (JsonMember S))
    (h : ∀ m ∈ ms, ∀ d v, fits m.type d → member m.type d j = some v →
      fits m.type v ∧ shape m.type j) :
    ∀ {ds vs}, List.Forall₂ (fun m v => fits m.type v) ms ds →
      assignMember member key j ms ds = some vs →
      List.Forall₂ (fun m v => fits m.type v) ms vs ∧
        ∃ m, ms.find? (fun m => decide (key = m.name)) = some m ∧ shape m.type j := by
  induction ms with
  | nil =>
    intro ds vs _ hassign
    cases ds <;> cases hassign
  | cons m ms ih =>
    intro ds vs hds hassign
    cases hds with
    | @cons _ d _ ds hd hds =>
      simp only [assignMember] at hassign
      split at hassign
      · rename_i hname
        obtain ⟨v, hv, rfl⟩ := map_eq_some_iff.mp hassign
        obtain ⟨hfits, hshape⟩ := h m (by simp) d v hd hv
        exact ⟨.cons hfits hds, m, by simp [hname], hshape⟩
      · rename_i hname
        obtain ⟨us, hus, rfl⟩ := map_eq_some_iff.mp hassign
        obtain ⟨hfits, m', hfind, hshape⟩ :=
          ih (fun m hm => h m (by simp [hm])) hds hus
        exact ⟨.cons hd hfits, m', by simp [hname, hfind], hshape⟩

theorem assignMember_complete {key : Bytes} {j : Json} {m : JsonMember S}
    (h : ∀ d, fits m.type d → ∃ v, member m.type d j = some v) (ms : List (JsonMember S)) :
    ∀ {ds}, List.Forall₂ (fun m v => fits m.type v) ms ds →
      ms.find? (fun m => decide (key = m.name)) = some m →
      ∃ vs, assignMember member key j ms ds = some vs := by
  induction ms with
  | nil =>
    intro ds _ hfind
    cases hfind
  | cons m' ms ih =>
    intro ds hds hfind
    cases hds with
    | @cons _ d _ ds hd hds =>
      by_cases hname : key = m'.name
      · simp only [List.find?_cons, hname, decide_true, Option.some.injEq] at hfind
        subst hfind
        obtain ⟨v, hv⟩ := h d hd
        exact ⟨v :: ds, by simp [assignMember, hname, hv]⟩
      · simp only [List.find?_cons, hname] at hfind
        obtain ⟨vs, hvs⟩ := ih hds hfind
        exact ⟨d :: vs, by simp [assignMember, hname, hvs]⟩

end Members

section Objects

variable {schema : JsonSchema S} {s : S} {fits : JsonTy S → JsonValue → Prop}
  {shape : JsonTy S → Json → Prop} {member : JsonTy S → JsonValue → Json → Option JsonValue}

theorem assignMembers_sound
    (h : ∀ m ∈ schema.members s, ∀ d j v, fits m.type d → member m.type d j = some v →
      fits m.type v ∧ shape m.type j) (js : List (List JsonChar × Json)) :
    ∀ {ds vs}, List.Forall₂ (fun m v => fits m.type v) (schema.members s) ds →
      assignMembers member (schema.members s) ds js = some vs →
      List.Forall₂ (fun m v => fits m.type v) (schema.members s) vs ∧
        ∀ p ∈ js, ∃ m, schema.member s p.1 = some m ∧ shape m.type p.2 := by
  induction js with
  | nil =>
    intro ds vs hds hassign
    obtain rfl := Option.some.inj hassign
    exact ⟨hds, by simp⟩
  | cons p js ih =>
    intro ds vs hds hassign
    obtain ⟨key, hkey, hassign⟩ := bind_eq_some_iff.mp hassign
    obtain ⟨ds', hstored, hassign⟩ := bind_eq_some_iff.mp hassign
    obtain ⟨hds', m, hfind, hshape⟩ :=
      assignMember_sound _ (fun m hm d v => h m hm d p.2 v) hds hstored
    obtain ⟨hvs, hjs⟩ := ih hds' hassign
    refine ⟨hvs, List.forall_mem_cons.mpr ⟨⟨m, ?_, hshape⟩, hjs⟩⟩
    simp [JsonSchema.member, hkey, hfind]

theorem assignMembers_complete
    (h : ∀ m ∈ schema.members s, ∀ d j v, fits m.type d → member m.type d j = some v →
      fits m.type v ∧ shape m.type j) (js : List (List JsonChar × Json)) :
    ∀ {ds}, List.Forall₂ (fun m v => fits m.type v) (schema.members s) ds →
      (∀ p ∈ js, ∃ m, schema.member s p.1 = some m ∧
        ∀ d, fits m.type d → ∃ v, member m.type d p.2 = some v) →
      ∃ vs, assignMembers member (schema.members s) ds js = some vs := by
  induction js with
  | nil => exact fun {ds} _ _ => ⟨ds, rfl⟩
  | cons p js ih =>
    intro ds hds hknown
    obtain ⟨⟨m, hm, hstore⟩, hknown⟩ := List.forall_mem_cons.mp hknown
    obtain ⟨key, hkey, hfind⟩ := bind_eq_some_iff.mp hm
    obtain ⟨ds', hds'⟩ := assignMember_complete hstore _ hds hfind
    obtain ⟨hfits⟩ := assignMember_sound _ (fun m hm d v => h m hm d p.2 v) hds hds'
    obtain ⟨vs, hvs⟩ := ih hfits hknown
    exact ⟨vs, by simp [assignMembers, hkey, hds', hvs]⟩

end Objects

/-- A tree of the shape of the type, nested no deeper than so many levels. -/
def Fits (schema : JsonSchema S) (levels : Nat) (ty : JsonTy S) (j : Json) : Prop :=
  Conforms schema ty j ∧ j.nesting ≤ levels

section Assign

variable {schema : JsonSchema S}
variable {ty : JsonTy S} {v dest : JsonValue} {levels : Nat}

theorem fits_array {js : List Json} (hconforms : Conforms schema ty (.array js))
    (hjs : ∀ j ∈ js, j.nesting ≤ levels) : Fits schema (levels + 1) ty (.array js) := by
  refine ⟨hconforms, ?_⟩
  simpa [Json.nesting] using elementsNesting_le.mpr hjs

theorem assignArray_sound {js : List Json}
    (inner : ∀ ty dest j v, ty.Plain → Typed schema.members ty dest →
      assign schema levels ty dest j = some v →
      Typed schema.members ty v ∧ Fits schema levels ty j) (hty : ty.Plain)
    (hdest : Typed schema.members ty dest)
    (h : assignArray schema (assign schema levels) js ty dest = some v) :
    Typed schema.members ty v ∧ Fits schema (levels + 1) ty (.array js) := by
  cases hdest with
  | @pushBack ty vs hvs =>
    obtain ⟨initial, hinitial, h⟩ := bind_eq_some_iff.mp h
    obtain ⟨us, hus, rfl⟩ := map_eq_some_iff.mp h
    have htyped := schema.defaultValue_typed ty initial hinitial
    obtain ⟨htypes, hfits⟩ :=
      assignAll_sound (fun j v hv => inner ty initial j v hty htyped hv) js (by simp) hus
    exact ⟨.pushBack htypes, fits_array
      (.pushBack (by simp [hinitial]) fun j hj => (hfits j hj).1) fun j hj => (hfits j hj).2⟩
  | @fixed size ty ds hsize hds =>
    obtain ⟨us, hus, rfl⟩ := map_eq_some_iff.mp h
    obtain ⟨hlength, hcount, htypes, hfits⟩ :=
      assignFixed_sound (fun d j v hd hv => inner ty d j v hty hd hv) ds hds hus
    exact ⟨.fixed (hlength.trans hsize) htypes, fits_array
      (.fixed (hcount.trans hsize) fun j hj => (hfits j hj).1) fun j hj => (hfits j hj).2⟩
  | insert => exact hty.elim
  | map => exact hty.elim
  | empty => exact hty.elim
  | present => exact hty.elim
  | enum => exact hty.elim
  | bool => cases h
  | integer => cases h
  | string => cases h
  | struct => cases h

theorem assignObject_sound (hschema : schema.Plain) {js : List (List JsonChar × Json)}
    (inner : ∀ ty dest j v, ty.Plain → Typed schema.members ty dest →
      assign schema levels ty dest j = some v →
      Typed schema.members ty v ∧ Fits schema levels ty j) (hdest : Typed schema.members ty dest)
    (h : assignObject schema (assign schema levels) js ty dest = some v) :
    Typed schema.members ty v ∧ Fits schema (levels + 1) ty (.object js) := by
  unfold assignObject at h
  split at h
  · rename_i s ds
    obtain ⟨us, hus, rfl⟩ := map_eq_some_iff.mp h
    have member : ∀ m ∈ schema.members s, ∀ d j v, Typed schema.members m.type d →
        assign schema levels m.type d j = some v →
        Typed schema.members m.type v ∧ Fits schema levels m.type j :=
      fun m hm d j v hd hv => inner m.type d j v (hschema s m hm) hd hv
    obtain ⟨htypes, hfits⟩ := assignMembers_sound member js (typed_struct_iff.mp hdest) hus
    refine ⟨typed_struct_iff.mpr htypes, .struct ?_ ?_, ?_⟩
    · intro p hp
      obtain ⟨m, hm⟩ := hfits p hp
      simp [hm]
    · intro p hp m hm
      obtain ⟨m', hm', hconforms, _⟩ := hfits p hp
      obtain rfl := Option.some.inj (hm.symm.trans hm')
      exact hconforms
    · have hnested : membersNesting js ≤ levels := by
        rw [membersNesting_le]
        intro p hp
        obtain ⟨m, _, _, hnesting⟩ := hfits p hp
        exact hnesting
      simpa [Json.nesting] using hnested
  · cases h

theorem storeBoolean_sound {b : Bool} (h : storeBoolean b ty = some v) :
    Typed schema.members ty v ∧ Conforms schema ty (.bool b) := by
  cases ty with
  | bool =>
    obtain rfl := Option.some.inj h
    exact ⟨.bool b, .bool b⟩
  | _ => cases h

theorem storeNumber_sound {t : Bytes} (hty : ty.Plain) (h : storeNumber t ty = some v) :
    Typed schema.members ty v ∧ Conforms schema ty (.number t) := by
  cases ty with
  | integer k =>
    obtain ⟨n, hn, rfl⟩ := map_eq_some_iff.mp h
    obtain ⟨_, _, _, rfl, hrange, _⟩ := (parseInteger_iff k t n).mp hn
    obtain ⟨hinteger, hunsigned⟩ := (parseInteger_isSome_iff k t).mp ⟨_, hn⟩
    exact ⟨.integer hrange, .integer hinteger hunsigned⟩
  | enum k => exact hty.elim
  | _ => cases h

theorem storeString_sound {s : Bytes} {cs : List JsonChar} (hs : decodedText cs = some s)
    (h : storeString s ty = some v) :
    Typed schema.members ty v ∧ Conforms schema ty (.string cs) := by
  cases ty with
  | string =>
    obtain rfl := Option.some.inj h
    exact ⟨.string s, .string (by simp [SurrogatesPaired, hs])⟩
  | _ => cases h

theorem assignScalar_sound {j : Json} (hty : ty.Plain) (h : assign schema levels ty dest j = some v)
    (hscalar : (∀ js, j ≠ .array js) ∧ ∀ ms, j ≠ .object ms) :
    Typed schema.members ty v ∧ Conforms schema ty j := by
  cases j with
  | null =>
    rw [assign_null] at h
    cases ty with
    | wrapper w ty => exact hty.elim
    | _ => cases h
  | bool b =>
    rw [assign_bool, withInner_eq schema _ hty] at h
    exact storeBoolean_sound h
  | number t =>
    rw [assign_number, withInner_eq schema _ hty] at h
    exact storeNumber_sound hty h
  | string cs =>
    rw [assign_string] at h
    obtain ⟨s, hs, h⟩ := bind_eq_some_iff.mp h
    rw [withInner_eq schema _ hty] at h
    exact storeString_sound hs h
  | array js => exact absurd rfl (hscalar.1 js)
  | object ms => exact absurd rfl (hscalar.2 ms)

/-- What a plain destination takes has the shape of its type, and leaves a value of the type. -/
theorem assign_sound (hschema : schema.Plain) (levels : Nat) :
    ∀ ty dest j v, ty.Plain → Typed schema.members ty dest →
      assign schema levels ty dest j = some v →
      Typed schema.members ty v ∧ Fits schema levels ty j := by
  induction levels with
  | zero =>
    intro ty dest j v hty hdest h
    cases j with
    | array js => simp [assign_array_zero] at h
    | object ms => simp [assign_object_zero] at h
    | _ =>
      obtain ⟨htyped, hconforms⟩ := assignScalar_sound hty h (by simp)
      exact ⟨htyped, hconforms, Nat.zero_le _⟩
  | succ levels ih =>
    intro ty dest j v hty hdest h
    cases j with
    | array js =>
      rw [assign_array_succ, withInner_eq schema _ hty] at h
      exact assignArray_sound ih hty hdest h
    | object ms =>
      rw [assign_object_succ, withInner_eq schema _ hty] at h
      exact assignObject_sound hschema ih hdest h
    | _ =>
      obtain ⟨htyped, hconforms⟩ := assignScalar_sound hty h (by simp)
      exact ⟨htyped, hconforms, Nat.zero_le _⟩

/-- A plain destination takes every tree of the shape of its type. -/
theorem assign_complete (hschema : schema.Plain) {j : Json} (h : Conforms schema ty j) :
    ∀ levels dest, ty.Plain → Typed schema.members ty dest → j.nesting ≤ levels →
      ∃ v, assign schema levels ty dest j = some v := by
  induction h with
  | bool b =>
    intro levels dest _ _ _
    exact ⟨.bool b, by rw [assign_bool]; rfl⟩
  | @integer k t hinteger hunsigned =>
    intro levels dest _ _ _
    obtain ⟨n, hn⟩ := (parseInteger_isSome_iff k t).mpr ⟨hinteger, hunsigned⟩
    exact ⟨.integer n, by rw [assign_number]; simp [withInner, storeNumber, hn]⟩
  | @string cs hpaired =>
    intro levels dest _ _ _
    obtain ⟨s, hs⟩ := isSome_iff_exists.mp hpaired
    exact ⟨.string s, by rw [assign_string]; simp [withInner, storeString, hs]⟩
  | @pushBack ty js hmake _ ih =>
    intro levels dest hty _ hnesting
    obtain ⟨levels, rfl, hjs⟩ := nesting_array_le hnesting
    obtain ⟨initial, hinitial⟩ := isSome_iff_exists.mp hmake
    have htyped := schema.defaultValue_typed ty initial hinitial
    obtain ⟨us, hus⟩ := assignAll_complete (fun vs v => vs ++ [v]) js []
      fun j hj => ih j hj levels initial hty htyped (hjs j hj)
    refine ⟨.items .sequence us, ?_⟩
    rw [assign_array_succ]
    simp [withInner, assignArray, hinitial, hus]
  | @fixed size ty js hsize _ ih =>
    intro levels dest hty hdest hnesting
    obtain ⟨levels, rfl, hjs⟩ := nesting_array_le hnesting
    cases hdest with
    | @fixed _ _ ds hlength hds =>
      obtain ⟨us, hus⟩ := assignFixed_complete ds hds (hsize.trans hlength.symm)
        fun d j hd hj => ih j hj levels d hty hd (hjs j hj)
      refine ⟨.items .sequence us, ?_⟩
      rw [assign_array_succ]
      simp [withInner, assignArray, hus]
  | @struct s ms hknown _ ih =>
    intro levels dest _ hdest hnesting
    obtain ⟨levels, rfl, hms⟩ := nesting_object_le hnesting
    cases hdest with
    | @struct _ ds hlength hds =>
      have htypes := typed_struct_iff.mp (Typed.struct hlength hds)
      have member : ∀ m ∈ schema.members s, ∀ d j v, Typed schema.members m.type d →
          assign schema levels m.type d j = some v →
          Typed schema.members m.type v ∧ Fits schema levels m.type j :=
        fun m hm d j v => assign_sound hschema levels m.type d j v (hschema s m hm)
      obtain ⟨us, hus⟩ := assignMembers_complete member ms htypes (by
        intro p hp
        obtain ⟨m, hm⟩ := isSome_iff_exists.mp (hknown p hp)
        refine ⟨m, hm, fun d hd => ih p hp m hm levels d ?_ hd (hms p hp)⟩
        obtain ⟨key, _, hfind⟩ := bind_eq_some_iff.mp hm
        exact hschema s m (List.mem_of_find?_eq_some hfind))
      refine ⟨.items .object us, ?_⟩
      rw [assign_object_succ]
      simp [withInner, assignObject, hus]

end Assign

end JobJson
