import OddBuilder.Token.Runtime

/-!
# Special tokens

Registering names for special tokens, and the search for the next name in a text.
The table from names to ids stands beside the tables that the runtime reads; the set
of special ids is a list in the order in which it iterates.
-/

namespace JobTokenizer

open List

/-- The special tokens with the table that leads from names to ids. -/
structure NamedSpecialTokens extends SpecialTokens where
  nameToId : AList (fun _ : Text => TokenId) := ∅

namespace NamedSpecialTokens

/-- The first branch of `registerSpecial`: the name leads to another id. `none` where the contract
that the id has a name is violated. -/
def releaseName (special : NamedSpecialTokens) (name : Text) (id : TokenId) : Option NamedSpecialTokens :=
  match special.nameToId.lookup name with
  | none => some special
  | some oldId =>
    if oldId = id then some special
    else if (special.idToName.lookup oldId).isNone then none
    else
      some { special with
        idToName := special.idToName.erase oldId
        specialIds :=
          if special.isCanonicalId oldId then special.specialIds else special.specialIds.erase oldId }

/-- The second branch: the id has another name. -/
def releaseId (special : NamedSpecialTokens) (name : Text) (id : TokenId) : Option NamedSpecialTokens :=
  match special.idToName.lookup id with
  | none => some special
  | some oldName =>
    if oldName = name then some special
    else if (special.nameToId.lookup oldName).isNone then none
    else some { special with nameToId := special.nameToId.erase oldName }

/-- The new entries of the three containers. -/
def enter (special : NamedSpecialTokens) (name : Text) (id : TokenId) : NamedSpecialTokens :=
  { special with
    nameToId := special.nameToId.insert name id
    idToName := special.idToName.insert id name
    specialIds := SpecialTokens.insertId special.specialIds id }

def setCanonicalId (special : NamedSpecialTokens) (type : SpecialTokenType) (id : TokenId) :
    NamedSpecialTokens :=
  { special with toSpecialTokens := special.toSpecialTokens.setCanonicalId type id }

/-- `none` where a contract is violated. A token without a role has no type. -/
def registerSpecial (special : NamedSpecialTokens) (name : Text) (id : TokenId)
    (type : Option SpecialTokenType) : Option NamedSpecialTokens :=
  if id = kInvalidToken ∨ name = [] then some special
  else do
    let special ← special.releaseName name id
    let special ← special.releaseId name id
    let special := special.enter name id
    match type with
    | none => some special
    | some type => some (special.setCanonicalId type id)

def reset (_special : NamedSpecialTokens) : NamedSpecialTokens := {}

/-- The calls that change the special tokens. -/
inductive Call where
  | registerSpecial (name : Text) (id : TokenId) (type : Option SpecialTokenType)
  | setCanonicalId (type : SpecialTokenType) (id : TokenId)
  | reset

def step (special : NamedSpecialTokens) : Call → Option NamedSpecialTokens
  | .registerSpecial name id type => special.registerSpecial name id type
  | .setCanonicalId type id => some (special.setCanonicalId type id)
  | .reset => some special.reset

def run (special : NamedSpecialTokens) : List Call → Option NamedSpecialTokens
  | [] => some special
  | call :: calls => do
    let special ← special.step call
    special.run calls

/-- The names and the ids lead to each other, and the special ids are those with a name and those
with a role. -/
structure Registered (special : NamedSpecialTokens) : Prop where
  inverse : ∀ name id, special.nameToId.lookup name = some id ↔ special.idToName.lookup id = some name
  named : ∀ id name, special.idToName.lookup id = some name → id ≠ kInvalidToken ∧ name ≠ []
  nodup : special.specialIds.Nodup
  ids : ∀ id, id ∈ special.specialIds ↔
    (∃ name, special.idToName.lookup id = some name) ∨
      id ≠ kInvalidToken ∧ ∃ type, special.canonical type = id

end NamedSpecialTokens

namespace SpecialTokens

theorem isCanonicalId_iff (special : SpecialTokens) (id : TokenId) :
    special.isCanonicalId id = true ↔ ∃ type, special.canonical type = id := by
  simp only [isCanonicalId, any_eq_true, beq_iff_eq]
  constructor
  · rintro ⟨type, -, h⟩
    exact ⟨type, h⟩
  · rintro ⟨type, h⟩
    refine ⟨type, ?_, h⟩
    cases type <;> decide

theorem mem_insertId {ids : List TokenId} {id x : TokenId} : x ∈ insertId ids id ↔ x = id ∨ x ∈ ids := by
  unfold insertId
  split
  · rename_i hmem
    have hid : id ∈ ids := by simpa using hmem
    constructor
    · exact Or.inr
    · rintro (rfl | hx)
      · exact hid
      · exact hx
  · rw [mem_append, mem_singleton, or_comm]

theorem insertId_nodup {ids : List TokenId} (h : ids.Nodup) (id : TokenId) : (insertId ids id).Nodup := by
  unfold insertId
  split
  · exact h
  · rename_i hmem
    have hid : id ∉ ids := by simpa using hmem
    rw [nodup_append]
    refine ⟨h, nodup_singleton id, ?_⟩
    rintro a ha b hb rfl
    rw [mem_singleton] at hb
    exact hid (hb ▸ ha)

theorem setCanonicalId_idToName (special : SpecialTokens) (type : SpecialTokenType) (id : TokenId) :
    (special.setCanonicalId type id).idToName = special.idToName := by
  simp only [setCanonicalId]
  split_ifs <;> rfl

theorem setCanonicalId_canonical (special : SpecialTokens) (type : SpecialTokenType) (id : TokenId) :
    (special.setCanonicalId type id).canonical =
      fun other => if other = type then id else special.canonical other := by
  simp only [setCanonicalId]
  split_ifs <;> rfl

/-- The setter of a role makes the new id special and takes the old one away, unless that has
another role or a name. -/
theorem setCanonicalId_specialIds {special : SpecialTokens} (nodup : special.specialIds.Nodup)
    (type : SpecialTokenType) (id : TokenId) :
    (special.setCanonicalId type id).specialIds.Nodup ∧
    ∀ x, x ∈ (special.setCanonicalId type id).specialIds ↔
      (x = id ∧ x ≠ kInvalidToken ∨ x ∈ special.specialIds) ∧
        ¬ (x = special.canonical type ∧ x ≠ kInvalidToken ∧
          (¬ ∃ other, (special.setCanonicalId type id).canonical other = x) ∧
          special.idToName.lookup x = none) := by
  let entered : SpecialTokens :=
    { special with
      canonical := fun other => if other = type then id else special.canonical other
      specialIds := if id ≠ kInvalidToken then insertId special.specialIds id else special.specialIds }
  have hentered : special.setCanonicalId type id =
      if special.canonical type ≠ kInvalidToken ∧ ¬ entered.isCanonicalId (special.canonical type) ∧
          (special.idToName.lookup (special.canonical type)).isNone then
        { entered with specialIds := entered.specialIds.erase (special.canonical type) }
      else entered := by
    simp only [setCanonicalId, entered]
    by_cases hid : id = kInvalidToken
    · simp [hid]
    · simp [hid]
  have hnodup : entered.specialIds.Nodup := by
    simp only [entered]
    split
    · exact insertId_nodup nodup id
    · exact nodup
  have hmem : ∀ x, x ∈ entered.specialIds ↔ x = id ∧ x ≠ kInvalidToken ∨ x ∈ special.specialIds := by
    intro x
    simp only [entered]
    split
    · rename_i hid
      rw [mem_insertId]
      constructor
      · rintro (rfl | hx)
        · exact Or.inl ⟨rfl, hid⟩
        · exact Or.inr hx
      · rintro (⟨rfl, -⟩ | hx)
        · exact Or.inl rfl
        · exact Or.inr hx
    · rename_i hid
      constructor
      · exact Or.inr
      · rintro (⟨rfl, hx⟩ | hx)
        · exact absurd hx hid
        · exact hx
  have hrole : ∀ x, (∃ other, (special.setCanonicalId type id).canonical other = x) ↔
      entered.isCanonicalId x = true := by
    intro x
    rw [isCanonicalId_iff, setCanonicalId_canonical]
  simp only [hrole]
  rw [hentered]
  split
  · rename_i herase
    obtain ⟨hvalid, hnorole, hnoname⟩ := herase
    refine ⟨hnodup.erase _, fun x => ?_⟩
    rw [hnodup.mem_erase_iff, hmem, and_comm]
    refine and_congr_right fun _ => not_congr ⟨?_, fun h => h.1⟩
    rintro rfl
    exact ⟨rfl, hvalid, hnorole, Option.isNone_iff_eq_none.mp hnoname⟩
  · rename_i hkeep
    refine ⟨hnodup, fun x => ?_⟩
    rw [hmem]
    refine ⟨fun h => ⟨h, ?_⟩, fun h => h.1⟩
    rintro ⟨rfl, hvalid, hnorole, hnoname⟩
    exact hkeep ⟨hvalid, hnorole, Option.isNone_iff_eq_none.mpr hnoname⟩

end SpecialTokens

namespace NamedSpecialTokens

open SpecialTokens

variable {special : NamedSpecialTokens} {name : Text} {id : TokenId}

theorem Registered.empty : Registered {} where
  inverse name id := by simp
  named id name h := by simp at h
  nodup := nodup_nil
  ids id := by
    constructor
    · intro h
      cases h
    · rintro (⟨h⟩ | ⟨hid, type, htype⟩)
      · simp at h
      · exact absurd htype.symm hid

theorem Registered.setCanonicalId (h : special.Registered) (type : SpecialTokenType) (id : TokenId) :
    (special.setCanonicalId type id).Registered := by
  have hnames : (special.setCanonicalId type id).idToName = special.idToName :=
    setCanonicalId_idToName special.toSpecialTokens type id
  have hroles : ∀ other, (special.setCanonicalId type id).canonical other =
      if other = type then id else special.canonical other :=
    congrFun (setCanonicalId_canonical special.toSpecialTokens type id)
  obtain ⟨hnodup, hmem⟩ := setCanonicalId_specialIds h.nodup type id
  refine ⟨?_, ?_, hnodup, fun x => ?_⟩
  · rw [hnames]
    exact h.inverse
  · rw [hnames]
    exact h.named
  · have hx := hmem x
    change x ∈ (special.setCanonicalId type id).specialIds ↔ _ at hx
    rw [hx, h.ids x, hnames]
    change _ ∧ ¬ (_ ∧ _ ∧ (¬ ∃ other, (special.setCanonicalId type id).canonical other = x) ∧ _) ↔ _
    simp only [hroles]
    constructor
    · rintro ⟨hold | hnamed | ⟨hvalid, other, hother⟩, hkept⟩
      · exact Or.inr ⟨hold.2, type, by rw [if_pos rfl, hold.1]⟩
      · exact Or.inl hnamed
      · by_cases hname : special.idToName.lookup x = none
        · -- without a name it is kept for one of the roles there are now
          by_contra hnot
          refine hkept ⟨?_, hvalid, fun hrole => hnot (Or.inr ⟨hvalid, hrole⟩), hname⟩
          by_cases hsame : other = type
          · rw [← hother, hsame]
          · exact absurd (Or.inr ⟨hvalid, other, by rw [if_neg hsame, hother]⟩) hnot
        · exact Or.inl (Option.ne_none_iff_exists'.mp hname)
    · rintro (⟨name, hname⟩ | ⟨hvalid, other, hother⟩)
      · exact ⟨Or.inr (Or.inl ⟨name, hname⟩), fun hlost => by rw [hlost.2.2.2] at hname; cases hname⟩
      · refine ⟨?_, fun hlost => hlost.2.2.1 ⟨other, hother⟩⟩
        split at hother
        · exact Or.inl ⟨hother.symm, hvalid⟩
        · exact Or.inr (Or.inr ⟨hvalid, other, hother⟩)

/-- The name leads nowhere else any more, and the contract is kept. -/
theorem releaseName_eq (h : special.Registered) (name : Text) (id : TokenId) :
    ∃ released, special.releaseName name id = some released ∧
      released.nameToId = special.nameToId ∧ released.canonical = special.canonical ∧
      (∀ x, released.idToName.lookup x =
        if special.idToName.lookup x = some name ∧ x ≠ id then none else special.idToName.lookup x) ∧
      released.specialIds.Nodup ∧
      ∀ x, x ∈ released.specialIds ↔ x ∈ special.specialIds ∧
        ((special.idToName.lookup x = some name ∧ x ≠ id) → ∃ type, special.canonical type = x) := by
  unfold releaseName
  split
  · rename_i hnone
    have hnot : ∀ x, special.idToName.lookup x ≠ some name := by
      intro x hx
      rw [(h.inverse name x).mpr hx] at hnone
      cases hnone
    refine ⟨special, rfl, rfl, rfl, fun x => ?_, h.nodup, fun x => ?_⟩
    · rw [if_neg fun hx => hnot x hx.1]
    · exact ⟨fun hx => ⟨hx, fun hlost => absurd hlost.1 (hnot x)⟩, fun hx => hx.1⟩
  · rename_i oldId hold
    have hname : special.idToName.lookup oldId = some name := (h.inverse name oldId).mp hold
    have honly : ∀ x, special.idToName.lookup x = some name ↔ x = oldId := by
      intro x
      rw [← h.inverse name x, hold, Option.some.injEq, eq_comm]
    split
    · rename_i hsame
      have hnot : ∀ x, ¬ (special.idToName.lookup x = some name ∧ x ≠ id) := by
        rintro x ⟨hx, hne⟩
        exact hne (((honly x).mp hx).trans hsame)
      refine ⟨special, rfl, rfl, rfl, fun x => ?_, h.nodup, fun x => ?_⟩
      · rw [if_neg (hnot x)]
      · exact ⟨fun hx => ⟨hx, fun hlost => absurd hlost (hnot x)⟩, fun hx => hx.1⟩
    · rename_i hne
      rw [if_neg (by simp [hname])]
      refine ⟨_, rfl, rfl, rfl, fun x => ?_, ?_, fun x => ?_⟩
      · dsimp only
        by_cases hx : x = oldId
        · subst hx
          rw [if_pos ⟨hname, hne⟩]
          exact AList.lookup_erase _ _
        · rw [if_neg fun hlost => hx ((honly x).mp hlost.1)]
          exact AList.lookup_erase_ne hx
      · split
        · exact h.nodup
        · exact h.nodup.erase oldId
      · rw [honly]
        split
        · rename_i hrole
          refine ⟨fun hx => ⟨hx, ?_⟩, fun hx => hx.1⟩
          rintro ⟨rfl⟩
          exact (isCanonicalId_iff _ _).mp hrole
        · rename_i hrole
          rw [h.nodup.mem_erase_iff, and_comm]
          refine and_congr_right fun _ => ⟨fun hx hlost => absurd hlost.1 hx, ?_⟩
          rintro hx rfl
          exact hrole ((isCanonicalId_iff _ _).mpr (hx ⟨rfl, hne⟩))

variable (special name id) in
/-- The id leads nowhere else any more, and the contract is kept. -/
theorem releaseId_eq (h : ∀ other, special.idToName.lookup id = some other → other ≠ name →
      special.nameToId.lookup other = some id) :
    ∃ released, special.releaseId name id = some released ∧
      released.toSpecialTokens = special.toSpecialTokens ∧
      ∀ other, released.nameToId.lookup other =
        if special.idToName.lookup id = some other ∧ other ≠ name then none
        else special.nameToId.lookup other := by
  unfold releaseId
  split
  · rename_i hnone
    refine ⟨special, rfl, rfl, fun other => ?_⟩
    rw [if_neg fun hother => by rw [hnone] at hother; cases hother.1]
  · rename_i oldName hold
    have honly : ∀ other, special.idToName.lookup id = some other ↔ other = oldName := by
      intro other
      rw [hold, Option.some.injEq, eq_comm]
    split
    · rename_i hsame
      refine ⟨special, rfl, rfl, fun other => ?_⟩
      rw [if_neg fun hother => hother.2 (((honly other).mp hother.1).trans hsame)]
    · rename_i hne
      have hback := h oldName hold hne
      rw [if_neg (by simp [hback])]
      refine ⟨_, rfl, rfl, fun other => ?_⟩
      dsimp only
      by_cases hother : other = oldName
      · subst hother
        rw [if_pos ⟨hold, hne⟩]
        exact AList.lookup_erase _ _
      · rw [if_neg fun hlost => hother ((honly other).mp hlost.1)]
        exact AList.lookup_erase_ne hother

/-- A registration keeps its contracts and enters the name and the id for each other, whatever they
led to before. -/
theorem registerSpecial_eq (h : special.Registered) {name : Text} {id : TokenId}
    (hid : id ≠ kInvalidToken) (hname : name ≠ []) :
    ∃ entered, (special.releaseName name id >>= fun special => special.releaseId name id).map
        (fun special => special.enter name id) = some entered ∧ entered.Registered := by
  obtain ⟨released, hreleased, hnames, hroles, hlookup, hnodup, hmem⟩ := releaseName_eq h name id
  have hsame : released.idToName.lookup id = special.idToName.lookup id := by
    rw [hlookup, if_neg fun hlost => hlost.2 rfl]
  obtain ⟨freed, hfreed, hbase, hnamesFreed⟩ := releaseId_eq released name id
    (fun other hother _ => by
      rw [hnames, h.inverse, ← hsame]
      exact hother)
  refine ⟨freed.enter name id, ?_, ?_⟩
  · simp [hreleased, hfreed]
  have hfreedNames : freed.idToName = released.idToName := by rw [hbase]
  have hfreedIds : freed.specialIds = released.specialIds := by rw [hbase]
  have hfreedRoles : freed.canonical = special.canonical := by rw [hbase, hroles]
  -- where the tables lead afterwards
  have htoName : ∀ x, (freed.enter name id).idToName.lookup x =
      if x = id then some name
      else if special.idToName.lookup x = some name then none else special.idToName.lookup x := by
    intro x
    simp only [enter, hfreedNames]
    by_cases hx : x = id
    · rw [if_pos hx, hx, AList.lookup_insert]
    · rw [AList.lookup_insert_ne hx, hlookup]
      simp [hx]
  have htoId : ∀ other, (freed.enter name id).nameToId.lookup other =
      if other = name then some id
      else if special.idToName.lookup id = some other then none else special.nameToId.lookup other := by
    intro other
    simp only [enter]
    by_cases hother : other = name
    · rw [if_pos hother, hother, AList.lookup_insert]
    · rw [AList.lookup_insert_ne hother, hnamesFreed, hsame, hnames]
      simp [hother]
  refine ⟨fun other x => ?_, fun x other hx => ?_, ?_, fun x => ?_⟩
  · rw [htoName, htoId]
    by_cases hother : other = name
    · by_cases hx : x = id
      · simp [hother, hx]
      · simp [hother, hx, Ne.symm hx]
    · by_cases hx : x = id
      · have hnot : ¬ (if special.idToName.lookup id = some other then none
            else special.nameToId.lookup other) = some id := by
          split
          · exact fun hnone => nomatch hnone
          · rename_i hfree
            exact fun hlead => hfree ((h.inverse other id).mp hlead)
        simp [hother, hx, Ne.symm hother, hnot]
      · simp only [hother, hx, if_false]
        constructor
        · intro hlead
          split at hlead
          · cases hlead
          · have hback := (h.inverse other x).mp hlead
            rw [if_neg]
            · exact hback
            · intro hnamed
              rw [hback] at hnamed
              exact hother (Option.some.inj hnamed)
        · intro hback
          split at hback
          · cases hback
          · have hlead := (h.inverse other x).mpr hback
            rw [if_neg]
            · exact hlead
            · intro hnamed
              rw [← h.inverse, hlead] at hnamed
              exact hx (Option.some.inj hnamed)
  · rw [htoName] at hx
    split at hx
    · rename_i hxid
      cases hx
      exact ⟨hxid ▸ hid, hname⟩
    · split at hx
      · cases hx
      · exact h.named x other hx
  · simp only [enter, hfreedIds]
    exact insertId_nodup hnodup id
  · have hrole : (∃ type, (freed.enter name id).canonical type = x) ↔
        ∃ type, special.canonical type = x := by
      simp [enter, hfreedRoles]
    rw [htoName, hrole]
    simp only [enter, hfreedIds, mem_insertId, hmem]
    by_cases hx : x = id
    · simp only [hx, true_or, true_iff]
      exact Or.inl ⟨name, rfl⟩
    · simp only [hx, false_or, ne_eq, not_false_eq_true]
      by_cases hnamed : special.idToName.lookup x = some name
      · -- the id has lost its name, so only a role keeps it special
        have hvalid := (h.named x name hnamed).1
        have hmem : x ∈ special.specialIds := (h.ids x).mpr (Or.inl ⟨name, hnamed⟩)
        simp [hnamed, hmem, hvalid]
      · simp only [hnamed, false_implies, and_true]
        exact h.ids x

theorem Registered.registerSpecial (h : special.Registered) (name : Text) (id : TokenId)
    (type : Option SpecialTokenType) :
    ∃ after, special.registerSpecial name id type = some after ∧ after.Registered := by
  unfold NamedSpecialTokens.registerSpecial
  split
  · exact ⟨special, rfl, h⟩
  · rename_i hvalid
    obtain ⟨hid, hname⟩ := not_or.mp hvalid
    obtain ⟨entered, hentered, hregistered⟩ := registerSpecial_eq h hid hname
    obtain ⟨freed, hfreed, rfl⟩ := Option.map_eq_some_iff.mp hentered
    obtain ⟨released, hreleased⟩ := Option.bind_eq_some_iff.mp hfreed
    simp only [hreleased, hfreed, Option.bind_eq_bind, Option.bind_some]
    cases type with
    | none => exact ⟨_, rfl, hregistered⟩
    | some type => exact ⟨_, rfl, hregistered.setCanonicalId type id⟩

theorem Registered.step (h : special.Registered) (call : Call) :
    ∃ after, special.step call = some after ∧ after.Registered := by
  cases call with
  | registerSpecial name id type => exact h.registerSpecial name id type
  | setCanonicalId type id => exact ⟨_, rfl, h.setCanonicalId type id⟩
  | reset => exact ⟨_, rfl, .empty⟩

/-- No sequence of calls violates a contract, and every one keeps the tables. -/
theorem Registered.run (h : special.Registered) (calls : List Call) :
    ∃ after, special.run calls = some after ∧ after.Registered := by
  induction calls generalizing special with
  | nil => exact ⟨special, rfl, h⟩
  | cons call calls ih =>
    obtain ⟨next, hnext, hregistered⟩ := h.step call
    obtain ⟨after, hafter, hdone⟩ := ih hregistered
    exact ⟨after, by simp [NamedSpecialTokens.run, hnext, hafter],
      hdone⟩

end NamedSpecialTokens

namespace SpecialTokens

variable {text : Text} {offset : Nat}

theorem find_eq_some {name : Text} {p : Nat} (hne : name ≠ [])
    (h : find text name offset = some p) :
    offset ≤ p ∧ name <+: text.drop p ∧ ∀ q, offset ≤ q → name <+: text.drop q → p ≤ q := by
  obtain ⟨hfront, before, after, hplaces, hbefore⟩ := List.find?_eq_some_iff_append.mp h
  have hmem : p ∈ (List.range (text.length + 1)).filter fun p => decide (offset ≤ p) := by
    rw [hplaces]
    exact mem_append_right _ (mem_cons_self ..)
  refine ⟨of_decide_eq_true (mem_filter.mp hmem).2, isPrefixOf_iff_prefix.mp hfront, ?_⟩
  intro q hq hqfront
  have hqmem : q ∈ (List.range (text.length + 1)).filter fun p => decide (offset ≤ p) := by
    refine mem_filter.mpr ⟨mem_range.mpr ?_, decide_eq_true hq⟩
    have hlength := hqfront.length_le
    have hpos := length_pos_iff.mpr hne
    rw [length_drop] at hlength
    omega
  have hsorted : ((List.range (text.length + 1)).filter fun p => decide (offset ≤ p)).Pairwise (· < ·) :=
    pairwise_lt_range.filter _
  rw [hplaces] at hqmem hsorted
  rcases mem_append.mp hqmem with hqmem | hqmem
  · have hnot := hbefore q hqmem
    have hmatch := isPrefixOf_iff_prefix.mpr hqfront
    rw [hmatch] at hnot
    cases hnot
  · rcases mem_cons.mp hqmem with rfl | hqmem
    · exact Nat.le_refl _
    · exact Nat.le_of_lt (rel_of_pairwise_cons (pairwise_append.mp hsorted).2.1 hqmem)

theorem find_eq_none {name : Text} (hne : name ≠ []) (h : find text name offset = none) :
    ∀ q, offset ≤ q → ¬ name <+: text.drop q := by
  intro q hq hfront
  have hlength := hfront.length_le
  have hpos := length_pos_iff.mpr hne
  rw [length_drop] at hlength
  have hnot := List.find?_eq_none.mp h q
    (mem_filter.mpr ⟨mem_range.mpr (by omega), decide_eq_true hq⟩)
  have hmatch := isPrefixOf_iff_prefix.mpr hfront
  exact hnot hmatch

/-- What the loop finds for one id. -/
def matchOf (special : SpecialTokens) (text : Text) (offset : Nat) (id : TokenId) : Option Match :=
  if (special.nameById id).isEmpty then none
  else (find text (special.nameById id) offset).map fun position =>
    ⟨id, position, (special.nameById id).length⟩

/-- Which of two matches the loop keeps. -/
def pick : Option Match → Option Match → Option Match
  | best, none => best
  | none, some found => some found
  | some best, some found =>
    if found.position < best.position ||
        (found.position == best.position && found.length > best.length) then some found
    else some best

theorem findBest_cons (special : SpecialTokens) (text : Text) (offset : Nat) (best : Option Match)
    (id : TokenId) (ids : List TokenId) :
    special.findBest text offset best (id :: ids) =
      special.findBest text offset (pick best (special.matchOf text offset id)) ids := by
  rw [findBest, matchOf]
  split
  · cases best <;> rfl
  · cases hfind : find text (special.nameById id) offset with
    | none => cases best <;> rfl
    | some position =>
      cases best with
      | none => rfl
      | some best => rfl

/-- The first of two matches is earlier, or it begins where the other does and is as long. -/
def Match.Best (a b : Match) : Prop :=
  a.position < b.position ∨ a.position = b.position ∧ b.length ≤ a.length

theorem Match.Best.refl (a : Match) : a.Best a := Or.inr ⟨rfl, Nat.le_refl _⟩

theorem Match.Best.trans {a b c : Match} (hab : a.Best b) (hbc : b.Best c) : a.Best c := by
  unfold Match.Best at *
  omega

theorem pick_spec (best found : Option Match) :
    (∀ kept, pick best found = some kept → best = some kept ∨ found = some kept) ∧
    ∀ other, best = some other ∨ found = some other →
      ∃ kept, pick best found = some kept ∧ kept.Best other := by
  cases found with
  | none =>
    refine ⟨fun kept h => Or.inl h, ?_⟩
    rintro other (h | h)
    · exact ⟨other, h, .refl other⟩
    · cases h
  | some found =>
    cases best with
    | none =>
      refine ⟨fun kept h => Or.inr h, ?_⟩
      rintro other (h | h)
      · cases h
      · exact ⟨other, h, .refl other⟩
    | some best =>
      simp only [pick, Bool.or_eq_true, decide_eq_true_eq, Bool.and_eq_true, beq_iff_eq]
      split
      · refine ⟨fun kept h => Or.inr h, ?_⟩
        rintro other (h | h) <;> cases h
        · refine ⟨found, rfl, ?_⟩
          unfold Match.Best
          omega
        · exact ⟨found, rfl, .refl found⟩
      · refine ⟨fun kept h => Or.inl h, ?_⟩
        rintro other (h | h) <;> cases h
        · exact ⟨best, rfl, .refl best⟩
        · refine ⟨best, rfl, ?_⟩
          unfold Match.Best
          omega

/-- The loop answers a match that it was given or has met, and one as good as any of them. -/
theorem findBest_spec (special : SpecialTokens) (text : Text) (offset : Nat) (best : Option Match)
    (ids : List TokenId) :
    (∀ kept, special.findBest text offset best ids = some kept →
      best = some kept ∨ ∃ id ∈ ids, special.matchOf text offset id = some kept) ∧
    ∀ other, (best = some other ∨ ∃ id ∈ ids, special.matchOf text offset id = some other) →
      ∃ kept, special.findBest text offset best ids = some kept ∧ kept.Best other := by
  induction ids generalizing best with
  | nil =>
    refine ⟨fun kept h => Or.inl h, ?_⟩
    rintro other (h | ⟨id, hid, -⟩)
    · exact ⟨other, h, .refl other⟩
    · cases hid
  | cons id ids ih =>
    rw [findBest_cons]
    obtain ⟨hpicked, hpick⟩ := pick_spec best (special.matchOf text offset id)
    obtain ⟨hkept, hbest⟩ := ih (pick best (special.matchOf text offset id))
    refine ⟨fun kept h => ?_, ?_⟩
    · rcases hkept kept h with h | ⟨other, hother, h⟩
      · rcases hpicked kept h with h | h
        · exact Or.inl h
        · exact Or.inr ⟨id, mem_cons_self .., h⟩
      · exact Or.inr ⟨other, mem_cons_of_mem id hother, h⟩
    · have hfirst : ∀ other, (best = some other ∨ special.matchOf text offset id = some other) →
          ∃ kept, special.findBest text offset (pick best (special.matchOf text offset id)) ids =
            some kept ∧ kept.Best other := by
        intro other h
        obtain ⟨picked, hpicked, hbetter⟩ := hpick other h
        obtain ⟨kept, hkept, hbest⟩ := hbest picked (Or.inl hpicked)
        exact ⟨kept, hkept, hbest.trans hbetter⟩
      rintro other (h | ⟨x, hx, h⟩)
      · exact hfirst other (Or.inl h)
      · rcases mem_cons.mp hx with rfl | hx
        · exact hfirst other (Or.inr h)
        · exact hbest other (Or.inr ⟨x, hx, h⟩)

theorem matchOf_eq_some {special : SpecialTokens} {id : TokenId} {found : Match}
    (h : special.matchOf text offset id = some found) :
    found.id = id ∧ special.nameById id ≠ [] ∧ found.length = (special.nameById id).length ∧
      find text (special.nameById id) offset = some found.position := by
  unfold matchOf at h
  split at h
  · cases h
  · rename_i hne
    obtain ⟨position, hposition, rfl⟩ := Option.map_eq_some_iff.mp h
    exact ⟨rfl, by simpa using hne, rfl, hposition⟩

theorem matchOf_of_stands {special : SpecialTokens} {p : Nat} {id : TokenId}
    (hne : special.nameById id ≠ []) (hp : offset ≤ p)
    (hstands : special.nameById id <+: text.drop p) :
    ∃ found, special.matchOf text offset id = some found ∧ found.position ≤ p ∧
      found.length = (special.nameById id).length := by
  cases hfind : find text (special.nameById id) offset with
  | none => exact absurd hstands (find_eq_none hne hfind p hp)
  | some position =>
    refine ⟨⟨id, position, (special.nameById id).length⟩, ?_, (find_eq_some hne hfind).2.2 p hp hstands, rfl⟩
    rw [matchOf, if_neg (by simpa using hne), hfind]
    rfl

end SpecialTokens

namespace NamedSpecialTokens

open SpecialTokens

variable {special : NamedSpecialTokens} {name : Text} {id : TokenId}

theorem nameById_eq {name : Text} (hne : name ≠ []) :
    special.nameById id = name ↔ special.idToName.lookup id = some name := by
  unfold SpecialTokens.nameById
  cases hlookup : special.idToName.lookup id with
  | none => simp [Ne.symm hne]
  | some other => simp

/-- Matches that are as good as each other are the same, for two names do not share an id. -/
theorem Registered.match_unique (h : special.Registered) {text : Text} {offset : Nat} {a b : TokenId}
    {found other : Match} (hfound : special.matchOf text offset a = some found)
    (hother : special.matchOf text offset b = some other) (hab : found.Best other)
    (hba : other.Best found) : found = other := by
  obtain ⟨rfl, hne, hlength, hfind⟩ := matchOf_eq_some hfound
  obtain ⟨rfl, hne', hlength', hfind'⟩ := matchOf_eq_some hother
  have hposition : found.position = other.position := by
    unfold Match.Best at hab hba
    omega
  have hsame : found.length = other.length := by
    unfold Match.Best at hab hba
    omega
  have hnames : special.nameById found.id = special.nameById other.id := by
    have hleft := prefix_iff_eq_take.mp (find_eq_some hne hfind).2.1
    have hright := prefix_iff_eq_take.mp (find_eq_some hne' hfind').2.1
    rw [hleft, hright, ← hlength, ← hlength', hposition, hsame]
  have hid : found.id = other.id := by
    have hleft := (h.inverse _ _).mpr ((nameById_eq hne).mp rfl)
    have hright := (h.inverse _ _).mpr ((nameById_eq hne').mp rfl)
    rw [hnames, hright] at hleft
    exact (Option.some.inj hleft).symm
  cases found
  cases other
  simp only [Match.mk.injEq]
  exact ⟨hid, hposition, hsame⟩

/-- The answer does not depend on the order in which the set iterates. -/
theorem Registered.findBest_order (h : special.Registered) (text : Text) (offset : Nat)
    {ids : List TokenId} (same : ∀ id, id ∈ ids ↔ id ∈ special.specialIds) :
    special.findBest text offset none ids = special.findNext text offset := by
  obtain ⟨hkept, hbest⟩ := findBest_spec special.toSpecialTokens text offset none ids
  obtain ⟨hkept', hbest'⟩ := findBest_spec special.toSpecialTokens text offset none special.specialIds
  rw [findNext]
  cases hleft : special.findBest text offset none ids with
  | none =>
    cases hright : special.findBest text offset none special.specialIds with
    | none => rfl
    | some other =>
      rcases hkept' other hright with hother | ⟨id, hid, hother⟩
      · cases hother
      · obtain ⟨kept, hsome, -⟩ := hbest other (Or.inr ⟨id, (same id).mpr hid, hother⟩)
        rw [hleft] at hsome
        cases hsome
  | some found =>
    rcases hkept found hleft with hfound | ⟨id, hid, hfound⟩
    · cases hfound
    · obtain ⟨other, hright, hba⟩ := hbest' found (Or.inr ⟨id, (same id).mp hid, hfound⟩)
      rcases hkept' other hright with hother | ⟨id', hid', hother⟩
      · cases hother
      · obtain ⟨kept, hsome, hab⟩ := hbest other (Or.inr ⟨id', (same id').mpr hid', hother⟩)
        rw [hleft] at hsome
        obtain rfl := Option.some.inj hsome
        rw [hright, h.match_unique hfound hother hab hba]

/-- A registered name is one of those that the loop looks for. -/
theorem Registered.matchOf_registered (h : special.Registered)
    (hname : special.nameToId.lookup name = some id) {text : Text} {offset p : Nat} (hp : offset ≤ p)
    (hstands : name <+: text.drop p) :
    id ∈ special.specialIds ∧ ∃ found, special.matchOf text offset id = some found ∧
      found.position ≤ p ∧ found.length = name.length := by
  have hlookup := (h.inverse name id).mp hname
  have hne := (h.named id name hlookup).2
  have hby : special.nameById id = name := (nameById_eq hne).mpr hlookup
  refine ⟨(h.ids id).mpr (Or.inl ⟨name, hlookup⟩), ?_⟩
  rw [← hby] at hstands hne ⊢
  exact matchOf_of_stands hne hp hstands

/-- After any sequence of calls, none of which violates a contract, the names and the ids lead to
each other, the special ids are those with a name or a role, and the search answers, in whatever
order the set iterates, the earliest of the registered names and of these the longest. -/
theorem run_registered (calls : List Call) :
    ∃ special, run {} calls = some special ∧
      (∀ name id, special.nameToId.lookup name = some id ↔ special.idToName.lookup id = some name) ∧
      (∀ id, id ∈ special.specialIds ↔ (∃ name, special.nameToId.lookup name = some id) ∨
        id ≠ kInvalidToken ∧ ∃ type, special.canonical type = id) ∧
      ∀ text offset,
        (∀ ids, (∀ id, id ∈ ids ↔ id ∈ special.specialIds) →
          special.findBest text offset none ids = special.findNext text offset) ∧
        (special.findNext text offset = none ↔
          ∀ name id, special.nameToId.lookup name = some id → ∀ p, offset ≤ p → ¬ name <+: text.drop p) ∧
        ∀ found, special.findNext text offset = some found →
          ∃ name, special.nameToId.lookup name = some found.id ∧ found.length = name.length ∧
            offset ≤ found.position ∧ name <+: text.drop found.position ∧
            ∀ other id p, special.nameToId.lookup other = some id → offset ≤ p →
              other <+: text.drop p →
              found.position < p ∨ found.position = p ∧ other.length ≤ found.length := by
  obtain ⟨special, hrun, h⟩ := Registered.empty.run calls
  refine ⟨special, hrun, h.inverse, fun id => ?_, fun text offset => ?_⟩
  · rw [h.ids id]
    simp only [h.inverse]
  obtain ⟨hkept, hbest⟩ := findBest_spec special.toSpecialTokens text offset none special.specialIds
  refine ⟨fun ids same => h.findBest_order text offset same, ?_, ?_⟩
  · constructor
    · intro hnone name id hname p hp hstands
      obtain ⟨hmem, found, hfound, -⟩ := h.matchOf_registered hname hp hstands
      obtain ⟨kept, hsome, -⟩ := hbest found (Or.inr ⟨id, hmem, hfound⟩)
      rw [findNext, hsome] at hnone
      cases hnone
    · intro hnowhere
      cases hnext : special.findNext text offset with
      | none => rfl
      | some found =>
        rcases hkept found hnext with hfound | ⟨id, -, hfound⟩
        · cases hfound
        · obtain ⟨rfl, hne, -, hfind⟩ := matchOf_eq_some hfound
          obtain ⟨hp, hstands, -⟩ := find_eq_some hne hfind
          exact absurd hstands
            (hnowhere _ _ ((h.inverse _ _).mpr ((nameById_eq hne).mp rfl)) found.position hp)
  · intro found hnext
    rcases hkept found hnext with hfound | ⟨id, -, hfound⟩
    · cases hfound
    · obtain ⟨rfl, hne, hlength, hfind⟩ := matchOf_eq_some hfound
      obtain ⟨hp, hstands, -⟩ := find_eq_some hne hfind
      refine ⟨special.nameById found.id, (h.inverse _ _).mpr ((nameById_eq hne).mp rfl), hlength, hp,
        hstands, ?_⟩
      intro other id p hother hp hstands
      obtain ⟨hmem, met, hmet, hle, hmetLength⟩ := h.matchOf_registered hother hp hstands
      obtain ⟨kept, hsome, hbetter⟩ := hbest met (Or.inr ⟨id, hmem, hmet⟩)
      have hsame : kept = found := Option.some.inj (hsome.symm.trans hnext)
      rw [hsame] at hbetter
      unfold Match.Best at hbetter
      omega

end NamedSpecialTokens

end JobTokenizer
