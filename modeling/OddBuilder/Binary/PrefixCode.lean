import OddBuilder.Binary.JobBinary

/-!
# The format is a prefix code

What `write` appends is read back from the front of any input, over any
destination of the type, and nothing shorter is accepted. The members that are
not serialised stay as they are in the destination, or as they come with what
`read` makes itself; all others come to be those of the value.
-/

namespace JobBinary

open List BinaryValue BinaryMember

variable {S : Type}

abbrev Steady {α : Type} (reader : BinaryReader α) : Prop := PrefixReader.Steady .stuck reader

open PrefixReader

theorem readBytes_steady (n : Nat) : Steady (readBytes n) := Steady.take (by decide) n

theorem readBool_steady : Steady readBool := (readBytes_steady 1).bind fun _ => Steady.pure _

theorem readSize_steady : Steady readSize := (readBytes_steady 8).bind fun _ => Steady.pure _

theorem readItems_steady {element : BinaryReader BinaryValue} (h : Steady element)
    (put : List BinaryValue → BinaryValue → List BinaryValue) (count : Nat) (vs : List BinaryValue) :
    Steady (readItems element put count vs) := by
  induction count generalizing vs with
  | zero => exact Steady.pure vs
  | succ count ih => exact h.bind fun v => ih (put vs v)

theorem readFixed_steady {element : BinaryValue → BinaryReader BinaryValue}
    (h : ∀ dest, Steady (element dest)) (dests : List BinaryValue) :
    Steady (readFixed element dests) := by
  induction dests with
  | nil => exact Steady.pure []
  | cons dest dests ih => exact (h dest).bind fun v => ih.bind fun vs => Steady.pure (v :: vs)

theorem readMembers_steady {member : BinaryTy S → BinaryValue → BinaryReader BinaryValue}
    (h : ∀ ty dest, Steady (member ty dest)) (ms : List (BinaryMember S))
    (dests : List BinaryValue) : Steady (readMembers member ms dests) := by
  induction ms generalizing dests with
  | nil =>
    cases dests with
    | nil => exact Steady.pure []
    | cons dest dests => exact Steady.throw _
  | cons m ms ih =>
    cases dests with
    | nil => cases m <;> exact Steady.throw _
    | cons dest dests =>
      cases m with
      | serialized ty =>
        exact (h ty dest).bind fun v => (ih dests).bind fun vs => Steady.pure (v :: vs)
      | unserialized => exact (ih dests).bind fun vs => Steady.pure (dest :: vs)

theorem readAs_steady (schema : BinarySchema S)
    {object : S → BinaryValue → BinaryReader BinaryValue}
    (h : ∀ s dest, Steady (object s dest)) (ty : BinaryTy S) (dest : BinaryValue) :
    Steady (readAs schema object ty dest) := by
  induction ty generalizing dest with
  | bool => exact readBool_steady.bind fun _ => Steady.pure _
  | scalar size => exact (readBytes_steady size).bind fun _ => Steady.pure _
  | string =>
    exact readSize_steady.bind fun length => (readBytes_steady length).bind fun _ => Steady.pure _
  | wrapper w ty ih =>
    refine readBool_steady.bind fun present => ?_
    cases present with
    | false => exact Steady.pure _
    | true => exact (ih _).bind fun _ => Steady.pure _
  | pushBack ty ih =>
    exact readSize_steady.bind fun count => (readItems_steady (ih _) _ _ _).bind fun _ => Steady.pure _
  | insert c ty ih =>
    exact readSize_steady.bind fun count => (readItems_steady (ih _) _ _ _).bind fun _ => Steady.pure _
  | fixed size ty ih =>
    refine readSize_steady.bind fun count => ?_
    have hrest := (readFixed_steady ih dest.inner).bind
      fun vs => Steady.pure (items .fixed vs)
    by_cases hcount : count ≠ size.toNat
    · simp only [hcount, ne_eq]
      exact (Steady.throw _).bind fun _ => hrest
    · simp only [hcount]
      exact hrest
  | map c key mapped ihKey ihMapped =>
    refine readSize_steady.bind fun count => (readItems_steady ?_ _ _ _).bind fun _ => Steady.pure _
    exact (ihKey _).bind fun k => (ihMapped _).bind fun m => Steady.pure _
  | object s => exact h s dest

theorem readObject_steady (schema : BinarySchema S) (levels : Nat) (s : S) (dest : BinaryValue) :
    Steady (readObject schema levels s dest) := by
  induction levels generalizing s dest with
  | zero => exact Steady.throw _
  | succ levels ih =>
    refine (readMembers_steady ?_ _ _).bind fun _ => Steady.pure _
    exact readAs_steady schema ih

theorem read_steady (schema : BinarySchema S) (levels : Nat) (ty : BinaryTy S) (dest : BinaryValue) :
    Steady (read schema levels ty dest) :=
  readAs_steady schema (readObject_steady schema levels) ty dest

/-- The destination after reading back a value: the value's serialised members, and the others as they
are in the destination, or in what is made for a wrapper, an element or an entry. -/
inductive Stored (schema : BinarySchema S) :
    BinaryTy S → BinaryValue → BinaryValue → BinaryValue → Prop
  | bool {dest : BinaryValue} (b : Bool) : Stored schema .bool dest (.bool b) (.bool b)
  | scalar {size : Nat} {dest : BinaryValue} (bytes : Bytes) :
      Stored schema (.scalar size) dest (.scalar bytes) (.scalar bytes)
  | string {dest : BinaryValue} (s : Bytes) : Stored schema .string dest (.string s) (.string s)
  | empty {w : BinaryWrapper} {ty : BinaryTy S} {dest : BinaryValue} :
      Stored schema (.wrapper w ty) dest .empty .empty
  | present {w : BinaryWrapper} {ty : BinaryTy S} {dest v v' : BinaryValue}
      (h : Stored schema ty (schema.made w ty) v v') :
      Stored schema (.wrapper w ty) dest (.present v) (.present v')
  | pushBack {ty : BinaryTy S} {dest : BinaryValue} {vs vs' : List BinaryValue}
      (hlength : vs.length = vs'.length)
      (h : ∀ v v', (v, v') ∈ vs.zip vs' → Stored schema ty (schema.defaultValue ty) v v') :
      Stored schema (.pushBack ty) dest (.items .sequence vs) (.items .sequence vs')
  | insert {c : BinaryContainer} {ty : BinaryTy S} {dest : BinaryValue}
      {vs us vs' : List BinaryValue}
      (hlength : vs.length = us.length)
      (h : ∀ v u, (v, u) ∈ vs.zip us → Stored schema ty (schema.defaultValue ty) v u)
      (hperm : us.Perm vs') :
      Stored schema (.insert c ty) dest (.items .set vs) (.items .set vs')
  | fixed {size : UInt64} {ty : BinaryTy S} {dests vs vs' : List BinaryValue}
      (hdests : dests.length = vs.length) (hstored : vs'.length = vs.length)
      (h : ∀ dest v v', (dest, v, v') ∈ dests.zip (vs.zip vs') → Stored schema ty dest v v') :
      Stored schema (.fixed size ty) (.items .fixed dests) (.items .fixed vs) (.items .fixed vs')
  | map {c : BinaryContainer} {key mapped : BinaryTy S} {dest : BinaryValue}
      {es us es' : List BinaryValue}
      (hlength : es.length = us.length)
      (hkey : ∀ k m k' m', (BinaryValue.entry k m, BinaryValue.entry k' m') ∈ es.zip us →
        Stored schema key (schema.defaultValue key) k k')
      (hmapped : ∀ k m k' m', (BinaryValue.entry k m, BinaryValue.entry k' m') ∈ es.zip us →
        Stored schema mapped (schema.defaultValue mapped) m m')
      (hentry : ∀ u ∈ us, ∃ k' m', u = BinaryValue.entry k' m') (hperm : us.Perm es') :
      Stored schema (.map c key mapped) dest (.items .map es) (.items .map es')
  | object {s : S} {dests vs vs' : List BinaryValue} (hdests : dests.length = vs.length)
      (hstored : vs'.length = vs.length)
      (hserialized : ∀ ty dest v v', (BinaryMember.serialized ty, dest, v, v') ∈
        (schema.members s).zip (dests.zip (vs.zip vs')) → Stored schema ty dest v v')
      (hunserialized : ∀ dest v v', (BinaryMember.unserialized, dest, v, v') ∈
        (schema.members s).zip (dests.zip (vs.zip vs')) → v' = dest) :
      Stored schema (.object s) (.items .object dests) (.items .object vs) (.items .object vs')

/-- What reading a value back leaves in a destination. -/
structure Restored (schema : BinarySchema S) (ty : BinaryTy S) (dest v v' : BinaryValue) : Prop where
  stored : Stored schema ty dest v v'
  alike : ∀ held : BinaryValue → BinaryValue → Prop, (∀ c c', held c c') ∨ Serialized v →
    Alike held v v'

theorem Alike.key {held : BinaryValue → BinaryValue → Prop} {v v' : BinaryValue}
    (h : Alike held v v') : Alike held v.key v'.key := by
  cases h with
  | @ordered kind vs vs' hkind hvs =>
    cases kind with
    | entry =>
      cases hvs with
      | nil => exact .ordered rfl .nil
      | cons hv _ => exact hv
    | _ => exact .ordered hkind hvs
  | @unordered kind vs us vs' hkind hvs hperm =>
    cases kind with
    | entry => cases hkind
    | _ => exact .unordered hkind hvs hperm
  | present h => exact .present h
  | bool b => exact .bool b
  | scalar bytes => exact .scalar bytes
  | string s => exact .string s
  | empty => exact .empty
  | unserialized h => exact .unserialized h

theorem Restored.similar {schema : BinarySchema S} {ty : BinaryTy S} {dest v v' : BinaryValue}
    (h : Restored schema ty dest v v') : Similar v v' := h.alike _ (.inl fun _ _ => trivial)

/-- Distinct items are all inserted, in whatever order the container keeps them. -/
theorem foldl_insert_perm {c : BinaryContainer} (hc : c.BySerialized) {vs us : List BinaryValue}
    (h : List.Forall₂ Similar vs us) (hdistinct : c.byKey.Distinct vs) :
    us.Perm (us.foldl c.byKey.insert []) :=
  c.byKey.foldl_insert_perm (fun hv hw => hc hv.key hw.key) h .nil .nil hdistinct

theorem readBool_run (b : Bool) (rest : Bytes) :
    readBool.run (writeBool b ++ rest) = .ok (b, rest) := by
  cases b <;> rfl

theorem readSize_run {n : Nat} (h : n < 2 ^ 64) (rest : Bytes) :
    readSize.run (writeSize n ++ rest) = .ok (n, rest) := by
  have hbytes : (readBytes 8).run (writeSize n ++ rest) = .ok (writeSize n, rest) :=
    run_take_append _ (LittleEndian.length_encode 8 n) rest
  rw [readSize, run_bind_eq_ok hbytes, writeSize, LittleEndian.decode_encode,
    Nat.mod_eq_of_lt (by omega)]
  rfl

/-- Items that are each read back come back one after the other. -/
theorem readItems_run {element : BinaryReader BinaryValue} {text : BinaryValue → Bytes}
    {R : BinaryValue → BinaryValue → Prop}
    (put : List BinaryValue → BinaryValue → List BinaryValue) (vs : List BinaryValue)
    (h : ∀ v ∈ vs, ∀ rest, ∃ v', element.run (text v ++ rest) = .ok (v', rest) ∧ R v v') :
    ∀ acc rest, ∃ us, (readItems element put vs.length acc).run (vs.flatMap text ++ rest) =
      .ok (us.foldl put acc, rest) ∧ List.Forall₂ R vs us := by
  induction vs with
  | nil => exact fun acc rest => ⟨[], rfl, .nil⟩
  | cons v vs ih =>
    intro acc rest
    obtain ⟨hv, hvs⟩ := forall_mem_cons.mp h
    obtain ⟨u, hu, hR⟩ := hv (vs.flatMap text ++ rest)
    obtain ⟨us, hus, hRs⟩ := ih hvs (put acc u) rest
    refine ⟨u :: us, ?_, .cons hR hRs⟩
    rw [flatMap_cons, append_assoc, length_cons, readItems, run_bind_eq_ok hu]
    exact hus

theorem foldl_push (us acc : List BinaryValue) :
    us.foldl (fun vs v => vs ++ [v]) acc = acc ++ us := by
  induction us generalizing acc with
  | nil => simp
  | cons u us ih => simp [ih]

theorem readFixed_run {element : BinaryValue → BinaryReader BinaryValue} {fits : BinaryValue → Prop}
    {text : BinaryValue → Bytes} {R : BinaryValue → BinaryValue → BinaryValue → Prop}
    (vs : List BinaryValue)
    (h : ∀ v ∈ vs, ∀ dest, fits dest → ∀ rest, ∃ v',
      (element dest).run (text v ++ rest) = .ok (v', rest) ∧ R dest v v') :
    ∀ dests, dests.length = vs.length → (∀ dest ∈ dests, fits dest) → ∀ rest,
      ∃ us, (readFixed element dests).run (vs.flatMap text ++ rest) = .ok (us, rest) ∧
        us.length = vs.length ∧ ∀ dest v u, (dest, v, u) ∈ dests.zip (vs.zip us) → R dest v u := by
  induction vs with
  | nil =>
    intro dests hlength _ rest
    obtain rfl := length_eq_zero_iff.mp hlength
    exact ⟨[], rfl, rfl, by simp⟩
  | cons v vs ih =>
    intro dests hlength hfits rest
    cases dests with
    | nil => cases hlength
    | cons dest dests =>
      obtain ⟨hv, hvs⟩ := forall_mem_cons.mp h
      obtain ⟨hdest, hdests⟩ := forall_mem_cons.mp hfits
      obtain ⟨u, hu, hR⟩ := hv dest hdest (vs.flatMap text ++ rest)
      obtain ⟨us, hus, huslength, hRs⟩ := ih hvs dests (Nat.succ.inj hlength) hdests rest
      refine ⟨u :: us, ?_, by simp [huslength], ?_⟩
      · rw [flatMap_cons, append_assoc, readFixed, run_bind_eq_ok hu, run_bind_eq_ok hus]
        rfl
      · intro dest' v' u' hmem
        simp only [zip_cons_cons, mem_cons] at hmem
        rcases hmem with ⟨rfl, rfl⟩ | hmem
        · exact hR
        · exact hRs dest' v' u' hmem

/-- Members that are each read back come back one after the other, the others stay. -/
theorem readMembers_run {member : BinaryTy S → BinaryValue → BinaryReader BinaryValue}
    (schema : BinarySchema S) {R : BinaryTy S → BinaryValue → BinaryValue → BinaryValue → Prop}
    (ms : List (BinaryMember S)) :
    ∀ dests vs, dests.length = ms.length → vs.length = ms.length →
      (∀ ty dest, (serialized ty, dest) ∈ ms.zip dests → Typed schema.members ty dest) →
      (∀ ty v, (serialized ty, v) ∈ ms.zip vs → ∀ dest, Typed schema.members ty dest →
        ∀ rest, ∃ v', (member ty dest).run (write schema ty v ++ rest) = .ok (v', rest) ∧
          R ty dest v v') →
      ∀ rest, ∃ us, (readMembers member ms dests).run (writeMembers schema ms vs ++ rest) =
          .ok (us, rest) ∧ us.length = vs.length ∧
        (∀ ty dest v u, (serialized ty, dest, v, u) ∈ ms.zip (dests.zip (vs.zip us)) →
          R ty dest v u) ∧
        ∀ dest v u, (BinaryMember.unserialized, dest, v, u) ∈ ms.zip (dests.zip (vs.zip us)) →
          u = dest := by
  induction ms with
  | nil =>
    intro dests vs hdests hvs _ _ rest
    obtain rfl := length_eq_zero_iff.mp hdests
    obtain rfl := length_eq_zero_iff.mp hvs
    exact ⟨[], rfl, rfl, by simp, by simp⟩
  | cons m ms ih =>
    intro dests vs hdests hvs htyped hread rest
    cases dests with
    | nil => cases hdests
    | cons dest dests =>
      cases vs with
      | nil => cases hvs
      | cons v vs =>
        obtain ⟨us, hus, hlength, hserialized, hunserialized⟩ :=
          ih dests vs (Nat.succ.inj hdests) (Nat.succ.inj hvs)
            (fun ty d h => htyped ty d (mem_cons_of_mem _ h))
            (fun ty w h => hread ty w (mem_cons_of_mem _ h)) rest
        cases m with
        | serialized ty =>
          obtain ⟨u, hu, hR⟩ := hread ty v (by simp) dest (htyped ty dest (by simp))
            (writeMembers schema ms vs ++ rest)
          refine ⟨u :: us, ?_, by simp [hlength], ?_, ?_⟩
          · rw [writeMembers, append_assoc, readMembers, run_bind_eq_ok hu, run_bind_eq_ok hus]
            rfl
          · intro ty' dest' v' u' hmem
            simp only [zip_cons_cons, mem_cons] at hmem
            rcases hmem with ⟨rfl, rfl⟩ | hmem
            · exact hR
            · exact hserialized ty' dest' v' u' hmem
          · intro dest' v' u' hmem
            simp only [zip_cons_cons, mem_cons, Prod.mk.injEq, reduceCtorEq, false_and,
              false_or] at hmem
            exact hunserialized dest' v' u' hmem
        | unserialized =>
          refine ⟨dest :: us, ?_, by simp [hlength], ?_, ?_⟩
          · rw [writeMembers, readMembers, run_bind_eq_ok hus]
            rfl
          · intro ty' dest' v' u' hmem
            simp only [zip_cons_cons, mem_cons, Prod.mk.injEq, reduceCtorEq, false_and,
              false_or] at hmem
            exact hserialized ty' dest' v' u' hmem
          · intro dest' v' u' hmem
            simp only [zip_cons_cons, mem_cons] at hmem
            rcases hmem with ⟨rfl, rfl⟩ | hmem
            · rfl
            · exact hunserialized dest' v' u' hmem

mutual

/-- How many objects stand in one another. -/
def BinaryValue.depth : BinaryValue → Nat
  | .present v => v.depth
  | .items .object vs => itemsDepth vs + 1
  | .items _ vs => itemsDepth vs
  | _ => 0

def itemsDepth : List BinaryValue → Nat
  | [] => 0
  | v :: vs => max v.depth (itemsDepth vs)

end

theorem itemsDepth_le {levels : Nat} {vs : List BinaryValue} :
    itemsDepth vs ≤ levels ↔ ∀ v ∈ vs, v.depth ≤ levels := by
  induction vs with
  | nil => simp [itemsDepth]
  | cons v vs ih => simp [itemsDepth, ih]

/-- The value is read back, with levels enough, over every destination of its type. -/
def Carries (schema : BinarySchema S) (ty : BinaryTy S) (v : BinaryValue) : Prop :=
  ∀ levels, v.depth ≤ levels → ∀ dest, Typed schema.members ty dest → ∀ rest,
    ∃ v', (read schema levels ty dest).run (write schema ty v ++ rest) = .ok (v', rest) ∧
      Restored schema ty dest v v'

theorem exists_mem_zip {α β : Type} (as : List α) {bs : List β} (h : as.length = bs.length) {b : β}
    (hb : b ∈ bs) : ∃ a, (a, b) ∈ as.zip bs := by
  obtain ⟨i, hi⟩ := mem_iff_getElem?.mp hb
  have hlt : i < bs.length := (List.getElem?_eq_some_iff.mp hi).1
  refine ⟨as[i], mem_iff_getElem?.mpr ⟨i, ?_⟩⟩
  rw [List.getElem?_zip_eq_some]
  exact ⟨List.getElem?_eq_getElem (h ▸ hlt), hi⟩

theorem mem_zip_of_zip {α β γ : Type} {as : List α} {bs : List β} {cs : List γ} {a : α} {b : β}
    {c : γ} (h : (a, b, c) ∈ as.zip (bs.zip cs)) : (a, b) ∈ as.zip bs ∧ (a, c) ∈ as.zip cs := by
  obtain ⟨i, hi⟩ := mem_iff_getElem?.mp h
  simp only [List.getElem?_zip_eq_some] at hi
  obtain ⟨ha, hb, hc⟩ := hi
  refine ⟨mem_iff_getElem?.mpr ⟨i, ?_⟩, mem_iff_getElem?.mpr ⟨i, ?_⟩⟩
  · rw [List.getElem?_zip_eq_some]
    exact ⟨ha, hb⟩
  · rw [List.getElem?_zip_eq_some]
    exact ⟨ha, hc⟩

theorem Serialized.inner {kind : BinaryItems} {vs : List BinaryValue}
    (h : Serialized (.items kind vs)) : ∀ v ∈ vs, Serialized v := by
  cases h with
  | items h => exact h

/-- Items that are each restored are alike. -/
theorem alike_items {kind : BinaryItems} {vs us : List BinaryValue} (hlength : vs.length = us.length)
    {held : BinaryValue → BinaryValue → Prop}
    (hheld : (∀ c c', held c c') ∨ Serialized (.items kind vs))
    (h : ∀ v u, (v, u) ∈ vs.zip us → (∀ c c', held c c') ∨ Serialized v → Alike held v u) :
    List.Forall₂ (Alike held) vs us := by
  refine forall₂_iff_zip.mpr ⟨hlength, ?_⟩
  intro v u hmem
  refine h v u hmem ?_
  rcases hheld with hheld | hserialized
  · exact .inl hheld
  · exact .inr (hserialized.inner v (of_mem_zip hmem).1)

section Carries

variable {schema : BinarySchema S} {ty : BinaryTy S} {vs : List BinaryValue}

theorem writeItems_eq (schema : BinarySchema S) (ty : BinaryTy S) (vs : List BinaryValue) :
    writeItems schema ty vs = vs.flatMap (write schema ty) := by
  induction vs with
  | nil => rfl
  | cons v vs ih => rw [writeItems, ih, flatMap_cons]

theorem carries_bool (b : Bool) : Carries schema .bool (.bool b) := by
  intro levels _ dest _ rest
  refine ⟨.bool b, ?_, .bool b, fun _ _ => .bool b⟩
  rw [read_bool, write_bool, run_bind_eq_ok (readBool_run b rest)]
  rfl

theorem carries_scalar {size : Nat} {bytes : Bytes} (h : bytes.length = size) :
    Carries schema (.scalar size) (.scalar bytes) := by
  intro levels _ dest _ rest
  refine ⟨.scalar bytes, ?_, .scalar bytes, fun _ _ => .scalar bytes⟩
  have hbytes : (readBytes size).run (bytes ++ rest) = .ok (bytes, rest) := run_take_append _ h rest
  rw [read_scalar, write_scalar, run_bind_eq_ok hbytes]
  rfl

theorem carries_string {s : Bytes} (h : s.length < 2 ^ 64) :
    Carries schema .string (.string s) := by
  intro levels _ dest _ rest
  refine ⟨.string s, ?_, .string s, fun _ _ => .string s⟩
  have hbytes : (readBytes s.length).run (s ++ rest) = .ok (s, rest) := run_take_append _ rfl rest
  rw [read_string, write_string, append_assoc, run_bind_eq_ok (readSize_run h _),
    run_bind_eq_ok hbytes]
  rfl

theorem carries_empty (w : BinaryWrapper) : Carries schema (.wrapper w ty) .empty := by
  intro levels _ dest _ rest
  refine ⟨.empty, ?_, .empty, fun _ _ => .empty⟩
  rw [read_wrapper]
  rfl

theorem carries_present (w : BinaryWrapper) {v : BinaryValue} (h : Carries schema ty v) :
    Carries schema (.wrapper w ty) (.present v) := by
  intro levels hlevels dest _ rest
  obtain ⟨v', hread, hstored, halike⟩ := h levels hlevels
    (schema.made w ty) (schema.made_typed w ty) rest
  refine ⟨.present v', ?_, .present hstored, ?_⟩
  · rw [read_wrapper, write_present, append_assoc, run_bind_eq_ok (readBool_run true _)]
    simp only [↓reduceIte]
    rw [run_bind_eq_ok hread]
    rfl
  · intro held hheld
    refine .present (halike held ?_)
    rcases hheld with hheld | hserialized
    · exact .inl hheld
    · cases hserialized with
      | present h => exact .inr h

/-- Elements that are made and read one by one. -/
theorem carries_elements (h : ∀ v ∈ vs, Carries schema ty v) {levels : Nat}
    (hlevels : itemsDepth vs ≤ levels)
    (put : List BinaryValue → BinaryValue → List BinaryValue) (rest : Bytes) :
    ∃ us, (readItems (readAs schema (readObject schema levels) ty (schema.defaultValue ty)) put
        vs.length []).run (writeItems schema ty vs ++ rest) = .ok (us.foldl put [], rest) ∧
      List.Forall₂ (Restored schema ty (schema.defaultValue ty)) vs us := by
  rw [writeItems_eq]
  refine readItems_run put vs ?_ [] rest
  intro v hv rest
  exact h v hv levels (itemsDepth_le.mp hlevels v hv) _ (schema.defaultValue_typed ty) rest

theorem carries_pushBack (hsize : vs.length < 2 ^ 64) (h : ∀ v ∈ vs, Carries schema ty v) :
    Carries schema (.pushBack ty) (.items .sequence vs) := by
  intro levels hlevels dest _ rest
  obtain ⟨us, hread, hus⟩ := carries_elements h hlevels
    (fun vs v => vs ++ [v]) rest
  obtain ⟨hlength, hpairs⟩ := forall₂_iff_zip.mp hus
  refine ⟨.items .sequence us, ?_, .pushBack hlength fun v u hmem => (hpairs hmem).stored, ?_⟩
  · rw [foldl_push] at hread
    rw [read_pushBack, write_pushBack, append_assoc, run_bind_eq_ok (readSize_run hsize _),
      run_bind_eq_ok hread]
    rfl
  · intro held hheld
    exact .ordered rfl (alike_items hlength hheld fun v u hmem => (hpairs hmem).alike held)

theorem carries_insert {c : BinaryContainer} (hc : c.BySerialized) (hsize : vs.length < 2 ^ 64)
    (hdistinct : c.byKey.Distinct vs) (h : ∀ v ∈ vs, Carries schema ty v) :
    Carries schema (.insert c ty) (.items .set vs) := by
  intro levels hlevels dest _ rest
  obtain ⟨us, hread, hus⟩ := carries_elements h hlevels
    c.byKey.insert rest
  obtain ⟨hlength, hpairs⟩ := forall₂_iff_zip.mp hus
  have hperm := foldl_insert_perm hc (hus.imp fun _ _ hv => hv.similar) hdistinct
  refine ⟨.items .set (us.foldl c.byKey.insert []), ?_,
    .insert hlength (fun v u hmem => (hpairs hmem).stored) hperm, ?_⟩
  · rw [read_insert, write_insert, append_assoc, run_bind_eq_ok (readSize_run hsize _),
      run_bind_eq_ok hread]
    rfl
  · intro held hheld
    exact .unordered rfl (alike_items hlength hheld fun v u hmem => (hpairs hmem).alike held) hperm

theorem carries_fixed {size : UInt64} (hlength : vs.length = size.toNat)
    (h : ∀ v ∈ vs, Carries schema ty v) : Carries schema (.fixed size ty) (.items .fixed vs) := by
  intro levels hlevels dest hdest rest
  have hdepth : itemsDepth vs ≤ levels := hlevels
  have hsize : vs.length < 2 ^ 64 := hlength ▸ size.toNat_lt
  cases hdest with
  | @fixed _ _ dests hdests hfits =>
    have hdestsLength : dests.length = vs.length := hdests.trans hlength.symm
    obtain ⟨us, hread, huslength, hrestored⟩ := readFixed_run vs
      (fun v hv => h v hv levels (itemsDepth_le.mp hdepth v hv)) dests hdestsLength hfits rest
    refine ⟨.items .fixed us, ?_,
      .fixed hdestsLength huslength fun dest v u hmem => (hrestored dest v u hmem).stored, ?_⟩
    · rw [read_fixed, write_fixed, append_assoc, run_bind_eq_ok (readSize_run hsize _),
        writeItems_eq]
      simp only [hlength, ne_eq]
      exact (run_bind_eq_ok hread).trans rfl
    · intro held hheld
      refine .ordered rfl (alike_items huslength.symm hheld fun v u hmem => ?_)
      obtain ⟨dest, hmem'⟩ := exists_mem_zip dests
        (by rw [length_zip, huslength, Nat.min_self, hdestsLength]) hmem
      exact (hrestored dest v u hmem').alike held

/-- What `write` appends for an entry. -/
def entryBytes (schema : BinarySchema S) (key mapped : BinaryTy S) : BinaryValue → Bytes
  | .items .entry [k, m] => write schema key k ++ write schema mapped m
  | _ => []

theorem writeEntries_eq (schema : BinarySchema S) (key mapped : BinaryTy S) {es : List BinaryValue}
    (hentry : ∀ e ∈ es, ∃ k m, e = entry k m) :
    writeEntries schema key mapped es = es.flatMap (entryBytes schema key mapped) := by
  induction es with
  | nil => rfl
  | cons e es ih =>
    obtain ⟨⟨k, m, rfl⟩, hentries⟩ := forall_mem_cons.mp hentry
    rw [entry, writeEntries, ih hentries, flatMap_cons, entryBytes]

/-- An entry made and read back. -/
def RestoredEntry (schema : BinarySchema S) (key mapped : BinaryTy S) (e u : BinaryValue) : Prop :=
  ∃ k m k' m', e = .entry k m ∧ u = .entry k' m' ∧
    Restored schema key (schema.defaultValue key) k k' ∧
    Restored schema mapped (schema.defaultValue mapped) m m'

theorem RestoredEntry.alike {key mapped : BinaryTy S} {e u : BinaryValue}
    (h : RestoredEntry schema key mapped e u) {held : BinaryValue → BinaryValue → Prop}
    (hheld : (∀ c c', held c c') ∨ Serialized e) : Alike held e u := by
  obtain ⟨k, m, k', m', rfl, rfl, hk, hm⟩ := h
  have hinner : ∀ v ∈ [k, m], (∀ c c', held c c') ∨ Serialized v := by
    intro v hv
    rcases hheld with hheld | hserialized
    · exact .inl hheld
    · exact .inr (hserialized.inner v hv)
  exact .ordered rfl (.cons (hk.alike held (hinner k (by simp)))
    (.cons (hm.alike held (hinner m (by simp))) .nil))

theorem carries_map {c : BinaryContainer} {key mapped : BinaryTy S} {es : List BinaryValue}
    (hc : c.BySerialized) (hsize : es.length < 2 ^ 64)
    (hentry : ∀ e ∈ es, ∃ k m, e = entry k m) (hdistinct : c.byKey.Distinct es)
    (hkey : ∀ k m, entry k m ∈ es → Carries schema key k)
    (hmapped : ∀ k m, entry k m ∈ es → Carries schema mapped m) :
    Carries schema (.map c key mapped) (.items .map es) := by
  intro levels hlevels dest _ rest
  have hdepth : itemsDepth es ≤ levels := hlevels
  have helement : ∀ e ∈ es, ∀ rest, ∃ u,
      (do
        let k ← readAs schema (readObject schema levels) key (schema.defaultValue key)
        let m ← readAs schema (readObject schema levels) mapped (schema.defaultValue mapped)
        return entry k m : BinaryReader BinaryValue).run
          (entryBytes schema key mapped e ++ rest) = .ok (u, rest) ∧
        RestoredEntry schema key mapped e u := by
    intro e he rest
    obtain ⟨k, m, rfl⟩ := hentry e he
    have hpair : itemsDepth [k, m] ≤ levels := itemsDepth_le.mp hdepth _ he
    obtain ⟨k', hk, hrestoredKey⟩ := hkey k m he levels (itemsDepth_le.mp hpair k (by simp)) _
      (schema.defaultValue_typed key) (write schema mapped m ++ rest)
    obtain ⟨m', hm, hrestoredMapped⟩ := hmapped k m he levels (itemsDepth_le.mp hpair m (by simp)) _
      (schema.defaultValue_typed mapped) rest
    refine ⟨.entry k' m', ?_, k, m, k', m', rfl, rfl, hrestoredKey, hrestoredMapped⟩
    rw [entry, entryBytes, append_assoc]
    exact (run_bind_eq_ok hk).trans ((run_bind_eq_ok hm).trans rfl)
  obtain ⟨us, hread, hus⟩ := readItems_run c.byKey.insert es helement [] rest
  obtain ⟨hlength, hpairs⟩ := forall₂_iff_zip.mp hus
  have hsimilar : List.Forall₂ Similar es us :=
    hus.imp fun _ _ h => h.alike (.inl fun _ _ => trivial)
  have hperm := foldl_insert_perm hc hsimilar hdistinct
  refine ⟨.items .map (us.foldl c.byKey.insert []), ?_, .map hlength ?_ ?_ ?_ hperm, ?_⟩
  · rw [read_map, write_map, append_assoc, run_bind_eq_ok (readSize_run hsize _),
      writeEntries_eq schema key mapped hentry]
    exact (run_bind_eq_ok hread).trans rfl
  · intro k m k' m' hmem
    obtain ⟨_, _, _, _, he, hu, hk, -⟩ := hpairs hmem
    cases he
    cases hu
    exact hk.stored
  · intro k m k' m' hmem
    obtain ⟨_, _, _, _, he, hu, -, hm⟩ := hpairs hmem
    cases he
    cases hu
    exact hm.stored
  · intro u hu
    obtain ⟨e, -, k, m, k', m', -, rfl, -⟩ := Insertion.exists_left_of_forall₂ hus u hu
    exact ⟨k', m', rfl⟩
  · intro held hheld
    exact .unordered rfl (alike_items hlength hheld fun e u hmem h => (hpairs hmem).alike h) hperm

theorem carries_object {s : S} (hlength : vs.length = (schema.members s).length)
    (hunserialized : ∀ v, (BinaryMember.unserialized, v) ∈ (schema.members s).zip vs →
      ∃ contents, v = .unserialized contents)
    (h : ∀ ty v, (BinaryMember.serialized ty, v) ∈ (schema.members s).zip vs →
      Carries schema ty v) :
    Carries schema (.object s) (.items .object vs) := by
  intro levels hlevels dest hdest rest
  cases levels with
  | zero => exact absurd hlevels (Nat.not_succ_le_zero _)
  | succ levels =>
    have hdepth : itemsDepth vs ≤ levels := Nat.le_of_succ_le_succ hlevels
    cases hdest with
    | @object _ dests hdests hfits hkept =>
      obtain ⟨us, hread, huslength, hrestored, hstay⟩ :=
        readMembers_run schema (schema.members s) dests vs hdests hlength hfits
          (fun ty v hmem => h ty v hmem levels (itemsDepth_le.mp hdepth v (of_mem_zip hmem).2))
          rest
      have hdestsLength : dests.length = vs.length := hdests.trans hlength.symm
      refine ⟨.items .object us, ?_, .object hdestsLength huslength ?_ hstay, ?_⟩
      · exact (run_bind_eq_ok hread).trans rfl
      · intro ty dest v u hmem
        exact (hrestored ty dest v u hmem).stored
      · intro held hheld
        refine .ordered rfl (alike_items huslength.symm hheld fun v u hmem hinner => ?_)
        have hziplength : (vs.zip us).length = vs.length := by
          rw [length_zip, huslength, Nat.min_self]
        obtain ⟨dest, hmem'⟩ := exists_mem_zip dests (by omega) hmem
        obtain ⟨m, hmem''⟩ := exists_mem_zip (schema.members s)
          (by rw [length_zip]; omega) hmem'
        obtain ⟨hdestMem, hvu⟩ := mem_zip_of_zip hmem''
        obtain ⟨hvMem⟩ := mem_zip_of_zip hvu
        cases m with
        | serialized ty => exact (hrestored ty dest v u hmem'').alike held hinner
        | unserialized =>
          obtain ⟨contents, rfl⟩ := hunserialized v hvMem
          obtain ⟨contents', rfl⟩ := hkept dest hdestMem
          obtain rfl := hstay _ _ u hmem''
          rcases hinner with hall | hserialized
          · exact .unserialized (hall _ _)
          · cases hserialized

end Carries

theorem carries_typed {schema : BinarySchema S} (hschema : schema.Sound) {ty : BinaryTy S}
    {v : BinaryValue} (h : Typed schema.members ty v) : BinarySchema.Plain ty → Carries schema ty v := by
  induction h with
  | bool b => exact fun _ => carries_bool b
  | scalar h => exact fun _ => carries_scalar h
  | string h => exact fun _ => carries_string h
  | @empty w ty => exact fun _ => carries_empty w
  | @present w ty v _ ih => exact fun hplain => carries_present w (ih hplain)
  | pushBack hsize _ ih => exact fun hplain => carries_pushBack hsize fun v hv => ih v hv hplain
  | insert hsize _ hdistinct ih =>
    exact fun hplain => carries_insert hplain.1 hsize hdistinct fun v hv => ih v hv hplain.2
  | fixed hlength _ ih => exact fun hplain => carries_fixed hlength fun v hv => ih v hv hplain
  | map hsize hentry _ _ hdistinct ihKey ihMapped =>
    exact fun hplain => carries_map hplain.1 hsize hentry hdistinct
      (fun k m hmem => ihKey k m hmem hplain.2.1) fun k m hmem => ihMapped k m hmem hplain.2.2
  | @object s vs hlength _ hunserialized ih =>
    exact fun _ => carries_object hlength hunserialized fun ty v hmem =>
      ih ty v hmem (hschema s ty (of_mem_zip hmem).1)

/-- The format is a prefix code. A value is read back from the front of any input, over any
destination of its type; `fromBytes` takes what `toBytes` gives and refuses every proper beginning
and every extension of it. -/
theorem read_write (schema : BinarySchema S) (hschema : schema.Sound) (ty : BinaryTy S)
    (hty : BinarySchema.Plain ty) (v : BinaryValue) (hv : Typed schema.members ty v)
    (dest : BinaryValue) (hdest : Typed schema.members ty dest) (levels : Nat)
    (hlevels : v.depth ≤ levels) :
    ∃ v', Stored schema ty dest v v' ∧ Similar v v' ∧ (Serialized v → Same v v') ∧
      (∀ rest, (read schema levels ty dest).run (write schema ty v ++ rest) = .ok (v', rest)) ∧
      fromBytes schema levels ty (toBytes schema ty v) dest = .stored v' ∧
      (∀ front more, toBytes schema ty v = front ++ more → more ≠ [] →
        fromBytes schema levels ty front dest = .refused) ∧
      ∀ more, more ≠ [] → fromBytes schema levels ty (toBytes schema ty v ++ more) dest = .refused := by
  obtain ⟨v', hread, hrestored⟩ := carries_typed hschema hv hty levels hlevels dest hdest []
  rw [append_nil] at hread
  -- the bytes are used up, so any rest stays behind
  have hrest : ∀ rest, (read schema levels ty dest).run (write schema ty v ++ rest) =
      .ok (v', rest) := fun rest => ((read_steady schema levels ty dest) _ rest).1 v' [] hread
  refine ⟨v', hrestored.stored, hrestored.similar, fun h => hrestored.alike _ (.inr h), hrest, ?_, ?_,
    ?_⟩
  · rw [fromBytes, toBytes, hread]
  · intro front more hsplit hmore
    rw [toBytes] at hsplit
    rw [hsplit] at hread
    obtain ⟨e, hne, herror⟩ := (read_steady schema levels ty dest).refuses hmore hread
    rw [fromBytes, herror]
    cases e with
    | stuck => exact absurd rfl hne
    | unexpectedEnd => rfl
    | sizeMismatch => rfl
  · intro more hmore
    rw [fromBytes, toBytes, hrest more]
    cases more with
    | nil => exact absurd rfl hmore
    | cons b more => rfl

/-- A node with the error text of its base class, a byte, and a pointer to the next node. -/
def node (lastErrorString : Bytes) (byte : UInt8) (next : BinaryValue) : BinaryValue :=
  .items .object [.unserialized (.string lastErrorString), .scalar [byte], next]

def nodeMembers : Unit → List (BinaryMember Unit) := fun _ =>
  [.unserialized, .serialized (.scalar 1), .serialized (.wrapper .sharedPtr (.object ()))]

theorem node_typed {next : BinaryValue}
    (h : Typed nodeMembers (.wrapper .sharedPtr (.object ())) next) (lastErrorString : Bytes)
    (byte : UInt8) : Typed nodeMembers (.object ()) (node lastErrorString byte next) := by
  refine .object rfl ?_ ?_
  · intro ty v hmem
    simp only [nodeMembers, zip_cons_cons, zip_nil_right, mem_cons, Prod.mk.injEq,
      reduceCtorEq, false_and, serialized.injEq, not_mem_nil, or_false,
      false_or] at hmem
    rcases hmem with ⟨rfl, rfl⟩ | ⟨rfl, rfl⟩
    · exact .scalar rfl
    · exact h
  · intro v hmem
    simp only [nodeMembers, zip_cons_cons, zip_nil_right, mem_cons, Prod.mk.injEq,
      true_and, reduceCtorEq, false_and, not_mem_nil, or_false] at hmem
    exact ⟨_, hmem⟩

def nodeSchema : BinarySchema Unit where
  members := nodeMembers
  initial := fun _ => node [] 0 .empty
  createShared := fun _ => none
  createUniq := fun _ => none
  initial_typed := fun _ => node_typed .empty [] 0
  createShared_typed := by simp
  createUniq_typed := by simp

theorem nodeSchema_sound : nodeSchema.Sound := by
  intro s ty hmem
  simp only [nodeSchema, nodeMembers, mem_cons, reduceCtorEq, serialized.injEq,
    not_mem_nil, or_false, false_or] at hmem
  rcases hmem with rfl | rfl
  · trivial
  · trivial

/-- Two nodes, read over another one: its error text stays, that of the second node is a new one's. -/
theorem read_write_node :
    ∃ v', Stored nodeSchema (.object ()) (node [3] 9 .empty)
        (node [1] 5 (.present (node [2] 6 .empty))) v' ∧
      fromBytes nodeSchema 2 (.object ())
        (toBytes nodeSchema (.object ()) (node [1] 5 (.present (node [2] 6 .empty))))
        (node [3] 9 .empty) = .stored v' ∧
      v' = node [3] 5 (.present (node [] 6 .empty)) := by
  obtain ⟨v', hstored, -, -, -, hfrom, -, -⟩ :=
    read_write nodeSchema nodeSchema_sound (.object ()) trivial
      (node [1] 5 (.present (node [2] 6 .empty)))
      (node_typed (.present (node_typed .empty [2] 6)) [1] 5) (node [3] 9 .empty)
      (node_typed .empty [3] 9) 2 (by decide)
  refine ⟨v', hstored, hfrom, ?_⟩
  have hcompute : fromBytes nodeSchema 2 (.object ())
      (toBytes nodeSchema (.object ()) (node [1] 5 (.present (node [2] 6 .empty))))
      (node [3] 9 .empty) = .stored (node [3] 5 (.present (node [] 6 .empty))) := rfl
  exact FromBytes.stored.inj (hfrom.symm.trans hcompute)

/-- A set of nodes ordered by their error texts. -/
def byLastErrorString : BinaryContainer where
  equivalent v w :=
    match v.inner, w.inner with
    | .unserialized (.string s) :: _, .unserialized (.string t) :: _ => s == t
    | _, _ => false
  arrange vs := vs
  arrange_perm vs := List.Perm.refl vs

set_option maxRecDepth 4096 in
/-- A node's error text is not read back, and of two nodes that differ in nothing else only one comes
back into a set that goes by it. -/
theorem unserialized_not_restored :
    (Typed nodeSchema.members (.object ()) (node [1] 5 .empty) ∧
      Typed nodeSchema.members (.object ()) (node [2] 5 .empty) ∧
      ∀ levels v', fromBytes nodeSchema levels (.object ())
        (toBytes nodeSchema (.object ()) (node [1] 5 .empty)) (node [2] 5 .empty) = .stored v' →
        ¬ Same (node [1] 5 .empty) v') ∧
    Typed nodeSchema.members (.insert byLastErrorString (.object ()))
      (.items .set [node [1] 5 .empty, node [2] 5 .empty]) ∧
    ∀ levels dest v', fromBytes nodeSchema levels (.insert byLastErrorString (.object ()))
      (toBytes nodeSchema (.insert byLastErrorString (.object ()))
        (.items .set [node [1] 5 .empty, node [2] 5 .empty])) dest = .stored v' →
      v'.inner.length = 1 := by
  refine ⟨⟨node_typed .empty [1] 5, node_typed .empty [2] 5, ?_⟩, ?_, ?_⟩
  · intro levels v' hfrom hsame
    cases levels with
    | zero => cases hfrom
    | succ levels =>
      obtain rfl : node [2] 5 .empty = v' := FromBytes.stored.inj hfrom
      cases hsame with
      | ordered _ h =>
        cases h with
        | cons h _ =>
          cases h with
          | unserialized h => cases h
      | unordered hkind _ _ => cases hkind
  · refine .insert (by decide) ?_ ?_
    · intro v hv
      simp only [mem_cons, not_mem_nil, or_false] at hv
      rcases hv with rfl | rfl
      · exact node_typed .empty [1] 5
      · exact node_typed .empty [2] 5
    · simp [Insertion.Container.Distinct, BinaryContainer.byKey, byLastErrorString, node,
        key, BinaryValue.inner]
  · intro levels dest v' hfrom
    cases levels with
    | zero => cases hfrom
    | succ levels =>
      obtain rfl : items .set [node [] 5 .empty] = v' := FromBytes.stored.inj hfrom
      rfl

end JobBinary
