import OddBuilder.Json.Emitter
import OddBuilder.Json.Implements
import OddBuilder.Library.Collections

/-!
# Round trip

What is emitted for a value is the text of a tree, and that tree leaves the
value in any destination of its type. `Carries` puts the two together for one
value; it goes through the containers by induction on the typing of the value.
-/

namespace JobJson

open List Option Insertion

variable {vs : List JsonValue} {js : List Json}

theorem exists_forall₂ {α β : Type} {R : α → β → Prop} {as : List α}
    (h : ∀ a ∈ as, ∃ b, R a b) : ∃ bs, List.Forall₂ R as bs := by
  induction as with
  | nil => exact ⟨[], .nil⟩
  | cons a as ih =>
    obtain ⟨⟨b, hb⟩, h⟩ := forall_mem_cons.mp h
    obtain ⟨bs, hbs⟩ := ih h
    exact ⟨b :: bs, .cons hb hbs⟩

mutual

/-- How many containers and objects stand in one another; the entries of a map are no level of
their own. -/
def JsonValue.nesting : JsonValue → Nat
  | .present v => v.nesting
  | .items .entry vs => itemsNesting vs
  | .items _ vs => itemsNesting vs + 1
  | _ => 0

def itemsNesting : List JsonValue → Nat
  | [] => 0
  | v :: vs => max v.nesting (itemsNesting vs)

end

/-- No full wrapper directly around an empty one. -/
inductive Restorable : JsonValue → Prop
  | bool (b : Bool) : Restorable (.bool b)
  | integer (n : Int) : Restorable (.integer n)
  | string (s : Bytes) : Restorable (.string s)
  | empty : Restorable .empty
  | present {v : JsonValue} (hv : v ≠ .empty) (h : Restorable v) : Restorable (.present v)
  | items {kind : JsonItems} {vs : List JsonValue} (h : ∀ v ∈ vs, Restorable v) :
      Restorable (.items kind vs)

theorem itemsNesting_le {levels : Nat} :
    itemsNesting vs ≤ levels ↔ ∀ v ∈ vs, v.nesting ≤ levels := by
  induction vs with
  | nil => simp [itemsNesting]
  | cons v vs ih => simp [itemsNesting, ih]

/-- Inside a container one level less is left. -/
theorem nesting_items_le {kind : JsonItems} (hkind : kind ≠ .entry) {levels : Nat}
    (h : (JsonValue.items kind vs).nesting ≤ levels) :
    ∃ fewer, levels = fewer + 1 ∧ ∀ v ∈ vs, v.nesting ≤ fewer := by
  have hnesting : (JsonValue.items kind vs).nesting = itemsNesting vs + 1 := by
    cases kind <;> first | rfl | exact absurd rfl hkind
  rw [hnesting] at h
  obtain ⟨fewer, rfl⟩ := Nat.exists_eq_add_of_le' (Nat.le_trans (Nat.le_add_left 1 _) h)
  exact ⟨fewer, rfl, itemsNesting_le.mp (Nat.le_of_succ_le_succ h)⟩

theorem Restorable.inner {kind : JsonItems} (h : Restorable (.items kind vs)) :
    ∀ v ∈ vs, Restorable v := by
  cases h with
  | items h => exact h

theorem Same.key {v v' : JsonValue} (h : Same v v') : Same v.key v'.key := by
  cases h with
  | @ordered kind vs vs' hkind hvs =>
    cases kind with
    | entry =>
      cases hvs with
      | nil => exact .ordered rfl .nil
      | cons hv _ => exact hv
    | _ => exact .ordered hkind hvs
  | @unordered kind vs us vs' hkind hvs hperm =>
    cases kind with
    | entry => cases hkind
    | _ => exact .unordered hkind hvs hperm
  | present h => exact .present h
  | bool b => exact .bool b
  | integer n => exact .integer n
  | string s => exact .string s
  | empty => exact .empty

variable {S : Type}

theorem assign_wrapper (schema : JsonSchema S) (levels : Nat) (w : JsonWrapper) (ty : JsonTy S)
    (dest : JsonValue) {j : Json} (hj : j ≠ .null) :
    assign schema levels (.wrapper w ty) dest j =
      (materialize schema w ty dest).bind fun inner =>
        (assign schema levels ty inner j).map .present := by
  cases j with
  | null => exact absurd rfl hj
  | bool b => simp [assign_bool, withInner]
  | number t => simp [assign_number, withInner]
  | string cs =>
    simp only [assign_string, withInner]
    cases decodedText cs <;> cases materialize schema w ty dest <;> rfl
  | array js =>
    cases levels with
    | zero => simp [assign_array_zero]
    | succ levels => simp [assign_array_succ, withInner]
  | object ms =>
    cases levels with
    | zero => simp [assign_object_zero]
    | succ levels => simp [assign_object_succ, withInner]

/-- The tree leaves the value, up to the order in sets and maps. -/
def Leaves (element : Json → Option JsonValue) (v : JsonValue) (j : Json) : Prop :=
  ∃ v', element j = some v' ∧ Same v v'

theorem assignAll_leaves {element : Json → Option JsonValue}
    (h : List.Forall₂ (Leaves element) vs js) :
    ∀ acc, ∃ us, assignAll element (fun vs v => vs ++ [v]) acc js = some (acc ++ us) ∧
      List.Forall₂ Same vs us := by
  induction h with
  | nil => exact fun acc => ⟨[], by simp [assignAll], .nil⟩
  | cons hv _ ih =>
    intro acc
    obtain ⟨v', hv', hsame⟩ := hv
    obtain ⟨us, hus, hsames⟩ := ih (acc ++ [v'])
    exact ⟨v' :: us, by simp [assignAll, hv', hus], .cons hsame hsames⟩

/-- Distinct items are all inserted. -/
theorem assignAll_insert_leaves {element : Json → Option JsonValue} (container : JsonContainer)
    (h : List.Forall₂ (Leaves element) vs js) :
    ∀ {before us acc}, List.Forall₂ Same before us → us.Perm acc →
      container.Distinct (before ++ vs) →
      ∃ us' acc', assignAll element container.insert acc js = some acc' ∧
        List.Forall₂ Same (before ++ vs) us' ∧ us'.Perm acc' := by
  induction h with
  | nil =>
    intro before us acc hus hperm _
    exact ⟨us, acc, rfl, by simpa using hus, hperm⟩
  | @cons v j vs js hv _ ih =>
    intro before us acc hus hperm hdistinct
    obtain ⟨v', hv', hsame⟩ := hv
    have hearlier : ∀ u ∈ before, container.equivalent v.key u.key = false :=
      fun u hu => (pairwise_append.mp hdistinct).2.2 u hu v (by simp)
    have hnew : ∀ w ∈ acc, container.equivalent v'.key w.key = false := by
      intro w hw
      obtain ⟨u, hu, huw⟩ := exists_left_of_forall₂ hus w (hperm.mem_iff.mpr hw)
      rw [← container.equivalent_same hsame.key huw.key]
      exact hearlier u hu
    have hinsert : container.insert acc v' = container.arrange (acc ++ [v']) := by
      have hany : (acc.any fun w => container.equivalent v'.key w.key) = false := by
        simpa using hnew
      simp [JsonContainer.insert, hany]
    have hperm' : (us ++ [v']).Perm (container.insert acc v') := by
      rw [hinsert]
      exact (hperm.append_right [v']).trans (container.arrange_perm _).symm
    have hbefore : List.Forall₂ Same (before ++ [v]) (us ++ [v']) :=
      rel_append hus (.cons hsame .nil)
    obtain ⟨us', acc', hassign, hsames, hperm''⟩ := ih hbefore hperm' (by simpa using hdistinct)
    exact ⟨us', acc', by simp [assignAll, hv', hassign], by simpa using hsames, hperm''⟩

theorem assignFixed_leaves {element : JsonValue → Json → Option JsonValue} {fits : JsonValue → Prop}
    (h : List.Forall₂ (fun v j => ∀ d, fits d → Leaves (element d) v j) vs js) :
    ∀ {ds}, ds.length = vs.length → (∀ d ∈ ds, fits d) →
      ∃ us, assignFixed element ds js = some us ∧ List.Forall₂ Same vs us := by
  induction h with
  | nil =>
    intro ds hlength _
    obtain rfl := length_eq_zero_iff.mp hlength
    exact ⟨[], rfl, .nil⟩
  | cons hv _ ih =>
    intro ds hlength hds
    cases ds with
    | nil => cases hlength
    | cons d ds =>
      obtain ⟨hd, hds⟩ := forall_mem_cons.mp hds
      obtain ⟨v', hv', hsame⟩ := hv d hd
      obtain ⟨us, hus, hsames⟩ := ih (Nat.succ.inj hlength) hds
      exact ⟨v' :: us, by simp [assignFixed, hv', hus], .cons hsame hsames⟩

/-- A name goes to its own member when no earlier member has it. -/
theorem assignMember_at {member : JsonTy S → JsonValue → Json → Option JsonValue} {j : Json}
    {m : JsonMember S} {ms : List (JsonMember S)} {d : JsonValue} {ds : List JsonValue}
    (earlier : List (JsonMember S)) :
    ∀ {done : List JsonValue}, done.length = earlier.length →
      (∀ m' ∈ earlier, m.name ≠ m'.name) →
      assignMember member m.name j (earlier ++ m :: ms) (done ++ d :: ds) =
        (member m.type d j).map fun v => done ++ v :: ds := by
  induction earlier with
  | nil =>
    intro done hlength _
    obtain rfl := length_eq_zero_iff.mp hlength
    simp [assignMember]
  | cons m' earlier ih =>
    intro done hlength hnames
    cases done with
    | nil => cases hlength
    | cons v done =>
      obtain ⟨hname, hnames⟩ := forall_mem_cons.mp hnames
      simp [assignMember, hname, ih (Nat.succ.inj hlength) hnames, Function.comp_def]

/-- The members that are left are assigned one after the other. -/
theorem assignMembers_leaves {member : JsonTy S → JsonValue → Json → Option JsonValue}
    {fits : JsonTy S → JsonValue → Prop} (ms : List (JsonMember S)) :
    ∀ {earlier : List (JsonMember S)} {done ds vs : List JsonValue}
      {js : List (List JsonChar × Json)}, done.length = earlier.length →
      ((earlier ++ ms).map JsonMember.name).Nodup →
      List.Forall₂ (fun m d => fits m.type d) ms ds → vs.length = ms.length →
      List.Forall₂ (fun p k => decodedText k.1 = some p.1.name ∧
        ∀ d, fits p.1.type d → Leaves (member p.1.type d) p.2 k.2) (ms.zip vs) js →
      ∃ us, assignMembers member (earlier ++ ms) (done ++ ds) js = some (done ++ us) ∧
        List.Forall₂ Same vs us := by
  induction ms with
  | nil =>
    intro earlier done ds vs js _ _ hds hlength hjs
    obtain rfl := length_eq_zero_iff.mp hlength
    cases hjs
    cases hds
    exact ⟨[], rfl, .nil⟩
  | cons m ms ih =>
    intro earlier done ds vs js hdone hnames hds hlength hjs
    cases vs with
    | nil => cases hlength
    | cons v vs =>
      cases hds with
      | @cons _ d _ ds hd hds =>
        cases hjs with
        | @cons _ k _ js hk hjs =>
          obtain ⟨hname, hleaves⟩ := hk
          obtain ⟨v', hv', hsame⟩ := hleaves d hd
          have hfresh : ∀ m' ∈ earlier, m.name ≠ m'.name := by
            intro m' hm' heq
            rw [map_append, nodup_append] at hnames
            exact hnames.2.2 m'.name (mem_map_of_mem hm') m.name (by simp) heq.symm
          have hstep := @assignMember_at S member k.2 m ms d ds earlier done hdone hfresh
          obtain ⟨us, hus, hsames⟩ := @ih (earlier ++ [m]) (done ++ [v']) ds vs js
            (by simp [hdone]) (by simpa using hnames) hds (Nat.succ.inj hlength) hjs
          refine ⟨v' :: us, ?_, .cons hsame hsames⟩
          simp only [append_assoc, cons_append, nil_append] at hus
          simp [assignMembers, hname, hstep, hv', hus]

/-- The value is written as the text of a tree, which leaves the value in every destination. -/
structure Carries (schema : JsonSchema S) (ty : JsonTy S) (v : JsonValue) (p : Bytes × Json) :
    Prop where
  emits : Appends (emitValue schema ty) v p.1
  reads : ∀ r, Value p.2 (p.1 ++ r) r
  null : p.2 = .null → v = .empty
  leaves : ∀ levels dest, v.nesting ≤ levels → Typed schema.members ty dest →
    Leaves (assign schema levels ty dest) v p.2

section Carries

variable {schema : JsonSchema S}
variable {ty : JsonTy S} {p : Bytes × Json}

theorem carries_bool (b : Bool) :
    Carries schema .bool (.bool b) (boolText b, .bool b) where
  emits := fun sink => rfl
  reads := fun r => .bool
  null := by simp
  leaves := fun levels dest _ _ => ⟨.bool b, by rw [assign_bool]; rfl, .bool b⟩

theorem carries_string (s : Bytes) : ∃ p, Carries schema .string (.string s) p := by
  obtain ⟨cs, hemit, hvalid, hdecoded⟩ := emitString_spec s
  refine ⟨(quoted cs, .string cs), ?_, ?_, by simp, ?_⟩
  · exact hemit
  · exact fun r => .string hvalid
  · intro levels dest _ _
    exact ⟨.string s, by simp [assign_string, hdecoded, withInner, storeString], .string s⟩

theorem emitNumber_spec {k : JsonInteger} {n : Int} (h : k.InRange n) (sink : JsonOutputSink) :
    emitNumber n sink = (true, sink ++ toChars n) := by
  have hlength := toChars_length h
  simp only [emitNumber, append]
  rw [if_neg (Nat.not_lt.mpr hlength)]

/-- Integers and enums: types that store a number of a range. -/
theorem carries_number {k : JsonInteger} {n : Int} (hrange : k.InRange n)
    (hemit : ∀ sink, emitValue schema ty (.integer n) sink = emitNumber n sink)
    (hstore : ∀ dest t, withInner schema (fun ty _ => storeNumber t ty) ty dest =
      (parseInteger k t).map .integer) :
    Carries schema ty (.integer n) (toChars n, .number (toChars n)) where
  emits := fun sink => (hemit sink).trans (emitNumber_spec hrange sink)
  reads := fun r => .number (toChars_isNumber n)
  null := by simp
  leaves := by
    intro levels dest _ _
    refine ⟨.integer n, ?_, .integer n⟩
    rw [assign_number, hstore, parseInteger_toChars hrange]
    rfl

theorem carries_empty (w : JsonWrapper) (ty : JsonTy S) :
    Carries schema (.wrapper w ty) .empty (literalNull, .null) where
  emits := fun sink => rfl
  reads := fun r => .null
  null := fun _ => rfl
  leaves := fun levels dest _ _ => ⟨.empty, by rw [assign_null]; rfl, .empty⟩

/-- A wrapper is filled where it is empty, and written into where it is not. -/
theorem materialize_spec {w : JsonWrapper} {dest : JsonValue}
    (hready : schema.Ready (.wrapper w ty)) (hdest : Typed schema.members (.wrapper w ty) dest) :
    ∃ inner, materialize schema w ty dest = some inner ∧ Typed schema.members ty inner := by
  obtain ⟨hmake, hdefault, _⟩ := hready
  cases hdest with
  | empty =>
    obtain ⟨initial, hinitial⟩ := isSome_iff_exists.mp hdefault
    exact ⟨initial, by simp [materialize, hmake, hinitial],
      schema.defaultValue_typed ty initial hinitial⟩
  | @present _ _ v h => exact ⟨v, rfl, h⟩

theorem carries_present {w : JsonWrapper} {v : JsonValue} (hready : schema.Ready (.wrapper w ty))
    (hv : v ≠ .empty) (h : Carries schema ty v p) :
    Carries schema (.wrapper w ty) (.present v) p where
  emits := fun sink => h.emits sink
  reads := h.reads
  null := fun hnull => absurd (h.null hnull) hv
  leaves := by
    intro levels dest hlevels hdest
    obtain ⟨inner, hinner, htyped⟩ := materialize_spec hready hdest
    obtain ⟨v', hv', hsame⟩ := h.leaves levels inner hlevels htyped
    refine ⟨.present v', ?_, .present hsame⟩
    rw [assign_wrapper schema levels w ty dest fun hnull => hv (h.null hnull), hinner]
    simp [hv']

section Sequences

variable {ty : JsonTy S} {vs : List JsonValue} {ps : List (Bytes × Json)}

/-- What a sequence of items is written as. -/
def sequenceText (ps : List (Bytes × Json)) : Bytes × Json :=
  (beginArray :: (joined (ps.map Prod.fst) ++ [endArray]), .array (ps.map Prod.snd))

theorem sequence_emits (h : List.Forall₂ (Carries schema ty) vs ps) (sink : JsonOutputSink) :
    enclose beginArray endArray (emitSequence schema ty true vs) sink =
      (true, sink ++ (sequenceText ps).1) := by
  have htexts : List.Forall₂ (Appends (emitValue schema ty)) vs (ps.map Prod.fst) :=
    forall₂_map_right_iff.mpr (h.imp fun v p hp => hp.emits)
  refine enclose_spec ?_ sink
  intro sink
  rw [emitSequence_eq]
  exact emitLoop_spec htexts sink

theorem texts_read (h : ∀ p ∈ ps, ∀ r, Value p.2 (p.1 ++ r) r) :
    ∀ r, Value (sequenceText ps).2 ((sequenceText ps).1 ++ r) r := by
  intro r
  refine value_array ?_ r
  rw [forall₂_map_left_iff, forall₂_map_right_iff, forall₂_same]
  exact h

theorem sequence_reads (h : List.Forall₂ (Carries schema ty) vs ps) :
    ∀ r, Value (sequenceText ps).2 ((sequenceText ps).1 ++ r) r := by
  refine texts_read ?_
  intro p hp
  obtain ⟨v, _, hcarries⟩ := exists_left_of_forall₂ h p hp
  exact hcarries.reads

theorem sequence_leaves (h : List.Forall₂ (Carries schema ty) vs ps) {levels : Nat}
    (hlevels : ∀ v ∈ vs, v.nesting ≤ levels) :
    List.Forall₂ (fun v j => ∀ dest, Typed schema.members ty dest →
      Leaves (assign schema levels ty dest) v j) vs (ps.map Prod.snd) := by
  rw [forall₂_map_right_iff]
  refine ((forall₂_and_left _ _).mpr ⟨hlevels, h⟩).imp ?_
  rintro v p ⟨hv, hp⟩ dest hdest
  exact hp.leaves levels dest hv hdest

/-- The items as they are left in a destination for one item. -/
theorem sequence_leaves_at (h : List.Forall₂ (Carries schema ty) vs ps) {levels : Nat}
    (hlevels : ∀ v ∈ vs, v.nesting ≤ levels) {dest : JsonValue}
    (hdest : Typed schema.members ty dest) :
    List.Forall₂ (Leaves (assign schema levels ty dest)) vs (ps.map Prod.snd) :=
  (sequence_leaves h hlevels).imp fun _ _ hleaves => hleaves dest hdest

theorem carries_pushBack (hmake : (schema.defaultValue ty).isSome = true)
    (h : List.Forall₂ (Carries schema ty) vs ps) :
    Carries schema (.pushBack ty) (.items .sequence vs) (sequenceText ps) where
  emits := sequence_emits h
  reads := sequence_reads h
  null := by simp [sequenceText]
  leaves := by
    intro levels dest hlevels _
    obtain ⟨fewer, rfl, hvs⟩ := nesting_items_le (by simp) hlevels
    obtain ⟨initial, hinitial⟩ := isSome_iff_exists.mp hmake
    have htyped := schema.defaultValue_typed ty initial hinitial
    obtain ⟨us, hus, hsame⟩ := assignAll_leaves (sequence_leaves_at h hvs htyped) []
    refine ⟨.items .sequence us, ?_, .ordered rfl hsame⟩
    simp [sequenceText, assign_array_succ, withInner, assignArray, hinitial, hus]

theorem carries_insert {container : JsonContainer} (hdistinct : container.Distinct vs)
    (hmake : (schema.defaultValue ty).isSome = true)
    (h : List.Forall₂ (Carries schema ty) vs ps) :
    Carries schema (.insert container ty) (.items .set vs) (sequenceText ps) where
  emits := sequence_emits h
  reads := sequence_reads h
  null := by simp [sequenceText]
  leaves := by
    intro levels dest hlevels _
    obtain ⟨fewer, rfl, hvs⟩ := nesting_items_le (by simp) hlevels
    obtain ⟨initial, hinitial⟩ := isSome_iff_exists.mp hmake
    have htyped := schema.defaultValue_typed ty initial hinitial
    obtain ⟨us, acc, hassign, hsame, hperm⟩ := assignAll_insert_leaves container
      (sequence_leaves_at h hvs htyped) .nil (List.Perm.refl []) hdistinct
    refine ⟨.items .set acc, ?_, .unordered rfl hsame hperm⟩
    simp [sequenceText, assign_array_succ, withInner, assignArray, hinitial, hassign]

theorem carries_fixed {size : Nat} (hsize : vs.length = size)
    (h : List.Forall₂ (Carries schema ty) vs ps) :
    Carries schema (.fixed size ty) (.items .sequence vs) (sequenceText ps) where
  emits := sequence_emits h
  reads := sequence_reads h
  null := by simp [sequenceText]
  leaves := by
    intro levels dest hlevels hdest
    obtain ⟨fewer, rfl, hvs⟩ := nesting_items_le (by simp) hlevels
    cases hdest with
    | @fixed _ _ ds hlength hds =>
      obtain ⟨us, hus, hsame⟩ :=
        assignFixed_leaves (sequence_leaves h hvs) (hlength.trans hsize.symm) hds
      refine ⟨.items .sequence us, ?_, .ordered rfl hsame⟩
      simp [sequenceText, assign_array_succ, withInner, assignArray, hus]

end Sequences

/-- A map entry, written as an array of its key and its value. -/
structure CarriesEntry (schema : JsonSchema S) (key mapped : JsonTy S) (e : JsonValue)
    (p : Bytes × Json) : Prop where
  emits : Appends (emitEntry schema key mapped) e p.1
  reads : ∀ r, Value p.2 (p.1 ++ r) r
  leaves : ∀ levels k m, e.nesting ≤ levels → Typed schema.members key k →
    Typed schema.members mapped m →
    Leaves (assignEntry (assign schema levels key k) (assign schema levels mapped m)) e p.2

theorem carriesEntry_of {key mapped : JsonTy S} {k m : JsonValue} {q : Bytes × Json}
    (hk : Carries schema key k p) (hm : Carries schema mapped m q) :
    CarriesEntry schema key mapped (.entry k m) (sequenceText [p, q]) where
  emits := by
    intro sink
    simp only [JsonValue.entry, emitEntry, hk.emits _, hm.emits _]
    simp [append, sequenceText, joined]
  reads := texts_read (by simp [hk.reads, hm.reads])
  leaves := by
    intro levels k₀ m₀ hlevels hk₀ hm₀
    have hpair := itemsNesting_le.mp (show itemsNesting [k, m] ≤ levels from hlevels)
    obtain ⟨k', hk', hsameKey⟩ := hk.leaves levels k₀ (hpair k (by simp)) hk₀
    obtain ⟨m', hm', hsameMapped⟩ := hm.leaves levels m₀ (hpair m (by simp)) hm₀
    refine ⟨.entry k' m', ?_, .ordered rfl (.cons hsameKey (.cons hsameMapped .nil))⟩
    simp [sequenceText, assignEntry, hk', hm']

theorem carries_map {container : JsonContainer} {key mapped : JsonTy S} {es : List JsonValue}
    {ps : List (Bytes × Json)} (hready : schema.Ready (.map container key mapped))
    (hentry : ∀ e ∈ es, ∃ k m, e = JsonValue.entry k m) (hdistinct : container.Distinct es)
    (h : List.Forall₂ (CarriesEntry schema key mapped) es ps) :
    Carries schema (.map container key mapped) (.items .map es) (sequenceText ps) where
  emits := by
    have htexts : List.Forall₂ (Appends (emitEntry schema key mapped)) es (ps.map Prod.fst) :=
      forall₂_map_right_iff.mpr (h.imp fun e p hp => hp.emits)
    refine enclose_spec ?_
    intro sink
    rw [emitMap_eq schema key mapped hentry]
    exact emitLoop_spec htexts sink
  reads := by
    refine texts_read ?_
    intro p hp
    obtain ⟨e, _, hcarries⟩ := exists_left_of_forall₂ h p hp
    exact hcarries.reads
  null := by simp [sequenceText]
  leaves := by
    intro levels dest hlevels _
    obtain ⟨fewer, rfl, hes⟩ := nesting_items_le (by simp) hlevels
    obtain ⟨⟨hkey⟩, hmapped, _⟩ := hready
    obtain ⟨k, hk⟩ := isSome_iff_exists.mp hkey
    obtain ⟨m, hm⟩ := isSome_iff_exists.mp hmapped
    have hleaves : List.Forall₂
        (Leaves (assignEntry (assign schema fewer key k) (assign schema fewer mapped m))) es
        (ps.map Prod.snd) := by
      rw [forall₂_map_right_iff]
      refine ((forall₂_and_left _ _).mpr ⟨hes, h⟩).imp ?_
      rintro e p ⟨he, hp⟩
      exact hp.leaves fewer k m he (schema.defaultValue_typed key k hk)
        (schema.defaultValue_typed mapped m hm)
    obtain ⟨us, acc, hassign, hsame, hperm⟩ := assignAll_insert_leaves container hleaves .nil
      (List.Perm.refl []) hdistinct
    refine ⟨.items .map acc, ?_, .unordered rfl hsame hperm⟩
    simp [sequenceText, assign_array_succ, withInner, assignArray, hk, hm, hassign]

/-- A member of a struct, written behind its name. -/
structure CarriesMember (schema : JsonSchema S) (x : JsonMember S × JsonValue)
    (p : Bytes × List JsonChar × Json) : Prop where
  emits : Appends (emitMember schema) x p.1
  reads : MemberText p.2 p.1
  name : decodedText p.2.1 = some x.1.name
  leaves : ∀ levels dest, x.2.nesting ≤ levels → Typed schema.members x.1.type dest →
    Leaves (assign schema levels x.1.type dest) x.2 p.2.2

theorem exists_carriesMember {x : JsonMember S × JsonValue} (h : Carries schema x.1.type x.2 p) :
    ∃ q, CarriesMember schema x q := by
  obtain ⟨cs, hemit, hvalid, hdecoded⟩ := emitString_spec x.1.name
  refine ⟨(quoted cs ++ nameSeparator :: p.1, cs, p.2), ?_, ⟨hvalid, p.1, rfl, h.reads⟩,
    hdecoded, h.leaves⟩
  intro sink
  simp only [emitMember, hemit, h.emits _, append]
  simp

theorem carries_struct {s : S} {vs : List JsonValue} {ps : List (Bytes × List JsonChar × Json)}
    (hnames : ((schema.members s).map JsonMember.name).Nodup)
    (hlength : vs.length = (schema.members s).length)
    (h : List.Forall₂ (CarriesMember schema) ((schema.members s).zip vs) ps) :
    Carries schema (.struct s) (.items .object vs)
      (beginObject :: (joined (ps.map Prod.fst) ++ [endObject]), .object (ps.map Prod.snd)) where
  emits := by
    have htexts : List.Forall₂ (Appends (emitMember schema)) ((schema.members s).zip vs)
        (ps.map Prod.fst) :=
      forall₂_map_right_iff.mpr (h.imp fun x p hp => hp.emits)
    refine enclose_spec ?_
    intro sink
    rw [emitObject_eq]
    exact emitLoop_spec htexts sink
  reads := by
    intro r
    refine value_object ?_ r
    rw [forall₂_map_left_iff, forall₂_map_right_iff, forall₂_same]
    intro p hp
    obtain ⟨x, _, hcarries⟩ := exists_left_of_forall₂ h p hp
    exact hcarries.reads
  null := by simp
  leaves := by
    intro levels dest hlevels hdest
    obtain ⟨fewer, rfl, hvs⟩ := nesting_items_le (by simp) hlevels
    have hnested : ∀ x ∈ (schema.members s).zip vs, x.2.nesting ≤ fewer :=
      fun x hx => hvs x.2 (of_mem_zip hx).2
    have hleaves : List.Forall₂ (fun x k => decodedText k.1 = some x.1.name ∧
        ∀ d, Typed schema.members x.1.type d → Leaves (assign schema fewer x.1.type d) x.2 k.2)
        ((schema.members s).zip vs) (ps.map Prod.snd) := by
      rw [forall₂_map_right_iff]
      refine ((forall₂_and_left _ _).mpr ⟨hnested, h⟩).imp ?_
      rintro x p ⟨hx, hp⟩
      exact ⟨hp.name, fun d hd => hp.leaves fewer d hx hd⟩
    cases hdest with
    | @struct _ ds hds htypes =>
      have hfits : List.Forall₂ (fun m d => Typed schema.members m.type d) (schema.members s) ds :=
        forall₂_iff_zip.mpr ⟨hds.symm, fun hp => htypes _ hp⟩
      obtain ⟨us, hus, hsame⟩ := @assignMembers_leaves S (assign schema fewer)
        (Typed schema.members) (schema.members s) [] [] ds vs _ rfl hnames hfits hlength hleaves
      refine ⟨.items .object us, ?_, .ordered rfl hsame⟩
      simp only [nil_append] at hus
      simp [assign_object_succ, withInner, assignObject, hus]

end Carries

/-- Names that tell the members of a struct apart, and members whose types can be made. -/
structure JsonSchema.Sound (schema : JsonSchema S) : Prop where
  names : ∀ s, ((schema.members s).map JsonMember.name).Nodup
  ready : ∀ s, ∀ m ∈ schema.members s, schema.Ready m.type

theorem exists_carries {schema : JsonSchema S} (hschema : schema.Sound) {ty : JsonTy S}
    {v : JsonValue} (h : Typed schema.members ty v) :
    schema.Ready ty → Restorable v → ∃ p, Carries schema ty v p := by
  induction h with
  | bool b => exact fun _ _ => ⟨_, carries_bool b⟩
  | integer h => exact fun _ _ => ⟨_, carries_number h (fun _ => rfl) fun _ _ => rfl⟩
  | enum h => exact fun _ _ => ⟨_, carries_number h (fun _ => rfl) fun _ _ => rfl⟩
  | string s => exact fun _ _ => carries_string s
  | @empty w ty => exact fun _ _ => ⟨_, carries_empty w ty⟩
  | @present w ty v _ ih =>
    intro hready hrestorable
    cases hrestorable with
    | present hv hinner =>
      obtain ⟨p, hp⟩ := ih hready.2.2 hinner
      exact ⟨p, carries_present hready hv hp⟩
  | @pushBack ty vs _ ih =>
    intro hready hrestorable
    obtain ⟨ps, hps⟩ := exists_forall₂ fun v hv => ih v hv hready.2 (hrestorable.inner v hv)
    exact ⟨_, carries_pushBack hready.1 hps⟩
  | @insert c ty vs _ hdistinct ih =>
    intro hready hrestorable
    obtain ⟨ps, hps⟩ := exists_forall₂ fun v hv => ih v hv hready.2 (hrestorable.inner v hv)
    exact ⟨_, carries_insert hdistinct hready.1 hps⟩
  | @fixed size ty vs hsize _ ih =>
    intro hready hrestorable
    obtain ⟨ps, hps⟩ := exists_forall₂ fun v hv => ih v hv hready (hrestorable.inner v hv)
    exact ⟨_, carries_fixed hsize hps⟩
  | @map c key mapped es hentry _ _ hdistinct ihKey ihMapped =>
    intro hready hrestorable
    have hes : ∀ e ∈ es, ∃ p, CarriesEntry schema key mapped e p := by
      intro e he
      obtain ⟨k, m, rfl⟩ := hentry e he
      have hpair := (hrestorable.inner _ he).inner
      obtain ⟨p, hp⟩ := ihKey k m he hready.1.2 (hpair k (by simp))
      obtain ⟨q, hq⟩ := ihMapped k m he hready.2.2 (hpair m (by simp))
      exact ⟨_, carriesEntry_of hp hq⟩
    obtain ⟨ps, hps⟩ := exists_forall₂ hes
    exact ⟨_, carries_map hready hentry hdistinct hps⟩
  | @struct s vs hlength _ ih =>
    intro _ hrestorable
    have hmembers : ∀ x ∈ (schema.members s).zip vs, ∃ q, CarriesMember schema x q := by
      intro x hx
      obtain ⟨hm, hv⟩ := of_mem_zip hx
      obtain ⟨p, hp⟩ := ih x hx (hschema.ready s x.1 hm) (hrestorable.inner x.2 hv)
      exact exists_carriesMember hp
    obtain ⟨ps, hps⟩ := exists_forall₂ hmembers
    exact ⟨_, carries_struct (hschema.names s) hlength hps⟩

/-- Every value is emitted, and parsing the text leaves the value in whatever destination of its
type, provided that the types can be made where the parser has to make one. -/
theorem parse_emit (schema : JsonSchema S) (hschema : schema.Sound) (ty : JsonTy S)
    (hty : schema.Ready ty) (v : JsonValue) (hv : Typed schema.members ty v)
    (hrestorable : Restorable v) (maxDepth : Nat) (hdepth : v.nesting ≤ maxDepth) :
    ∃ text, (∀ sink, emit schema ty v sink = (true, sink ++ text)) ∧
      ∀ dest, Typed schema.members ty dest →
        ∃ v', parse schema maxDepth text ty dest = .ok v' ∧ Same v v' := by
  obtain ⟨⟨text, j⟩, hcarries⟩ := exists_carries hschema hv hty hrestorable
  refine ⟨text, hcarries.emits, ?_⟩
  intro dest hdest
  obtain ⟨v', hassign, hsame⟩ := hcarries.leaves maxDepth dest hdepth hdest
  have htext : IsText j text := by
    have hreads := hcarries.reads []
    rw [append_nil] at hreads
    exact ⟨[], text, [], rfl, isWs_nil, hreads, isWs_nil⟩
  exact ⟨v', (parse_ok_iff schema maxDepth text ty dest v').mpr ⟨j, htext, hassign⟩, hsame⟩

/-- A struct of an optional vector and a string, without a default constructor. -/
def recordSchema : JsonSchema Unit where
  members := fun _ =>
    [⟨[97], .wrapper .optional (.pushBack (.integer ⟨true, .w32⟩))⟩, ⟨[98], .string⟩]
  initial := fun _ => none
  initial_typed := by simp

def recordValue : JsonValue :=
  .items .object [.present (.items .sequence [.integer (-5)]), .string [34, 7]]

theorem recordValue_typed : Typed recordSchema.members (.struct ()) recordValue := by
  refine .struct rfl ?_
  intro p hp
  rcases mem_cons.mp hp with rfl | hp
  · refine .present (.pushBack ?_)
    intro v hv
    obtain rfl := mem_singleton.mp hv
    exact .integer (by decide)
  · obtain rfl := mem_singleton.mp hp
    exact .string _

theorem recordValue_restorable : Restorable recordValue := by
  refine .items ?_
  intro v hv
  rcases mem_cons.mp hv with rfl | hv
  · refine .present (by simp) (.items ?_)
    intro v hv
    obtain rfl := mem_singleton.mp hv
    exact .integer _
  · obtain rfl := mem_singleton.mp hv
    exact .string _

theorem recordSchema_sound : recordSchema.Sound := by
  constructor
  · rintro ⟨⟩
    decide
  · intro s m hm
    rcases mem_cons.mp hm with rfl | hm
    · exact ⟨rfl, rfl, rfl, trivial⟩
    · obtain rfl := mem_singleton.mp hm
      trivial

theorem parse_emit_record :
    ∃ text, (∀ sink, emit recordSchema (.struct ()) recordValue sink = (true, sink ++ text)) ∧
      ∀ dest, Typed recordSchema.members (.struct ()) dest →
        ∃ v', parse recordSchema 2 text (.struct ()) dest = .ok v' ∧ Same recordValue v' :=
  parse_emit recordSchema recordSchema_sound (.struct ()) trivial recordValue recordValue_typed
    recordValue_restorable 2 (by decide)

/-- An empty vector of such structs is emitted, but its text is refused; so is the struct in an
optional that is empty, and a value for an empty pointer with a deleter of its own. -/
theorem unmakeable_refused :
    (Typed recordSchema.members (.pushBack (.struct ())) (.items .sequence []) ∧
      Restorable (.items .sequence []) ∧
      emit recordSchema (.pushBack (.struct ())) (.items .sequence []) [] =
        (true, [beginArray, endArray]) ∧
      ∀ dest v, parse recordSchema 128 [beginArray, endArray] (.pushBack (.struct ())) dest ≠ .ok v) ∧
    (Typed recordSchema.members (.wrapper .optional (.struct ())) (.present recordValue) ∧
      Restorable (.present recordValue) ∧
      ∃ text, emit recordSchema (.wrapper .optional (.struct ())) (.present recordValue) [] =
          (true, text) ∧
        ∀ v, parse recordSchema 128 text (.wrapper .optional (.struct ())) .empty ≠ .ok v) ∧
    Typed recordSchema.members (.wrapper (.uniquePtr false) .bool) (.present (.bool true)) ∧
      Restorable (.present (.bool true)) ∧
      emit recordSchema (.wrapper (.uniquePtr false) .bool) (.present (.bool true)) [] =
        (true, literalTrue) ∧
      ∀ v, parse recordSchema 128 literalTrue (.wrapper (.uniquePtr false) .bool) .empty ≠ .ok v := by
  refine ⟨⟨.pushBack (by simp), .items (by simp), rfl, ?_⟩,
    ⟨.present recordValue_typed, .present (by simp [recordValue]) recordValue_restorable, _, rfl, ?_⟩,
    .present (.bool true), .present (by simp) (.bool true), rfl, ?_⟩
  · rintro dest v ⟨⟩
  · rintro v ⟨⟩
  · rintro v ⟨⟩

end JobJson
