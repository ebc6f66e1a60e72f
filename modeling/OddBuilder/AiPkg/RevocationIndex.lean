import OddBuilder.Library.Collections

/-!
# The revocation index

One record type for revoked keys, attestations and packages, and a map for each. A
package is found under its name and its version with a unit separator between them;
which pairs share a place under that key decides what the lookups say.
-/

namespace JobAiPkg

open List

variable {H : Type} [DecidableEq H]

/-- A revocation record; the hashes and the public key are of one type. -/
structure AiPkgRevoke (H : Type) where
  kind : UInt32
  targetHash : H
  pkgId : List UInt8
  version : List UInt8
  reason : UInt32
  tsMs : Int64
  signerPub : H
  signature : List UInt8
deriving DecidableEq

inductive RevokeKind where
  | key
  | attestation
  | package
deriving DecidableEq

/-- `static_cast<RevokeKind>`, with `none` for the values that have no name. -/
def RevokeKind.ofNumber (n : UInt32) : Option RevokeKind :=
  if n = 1 then some .key
  else if n = 2 then some .attestation
  else if n = 3 then some .package
  else none

def unitSeparator : UInt8 := 0x1f

def packageKey (pkgId version : List UInt8) : List UInt8 := pkgId ++ unitSeparator :: version

structure JobAiPkgRevocationIndex (H : Type) where
  revokedKeys : KeyedMap H (AiPkgRevoke H) := []
  revokedAttestations : KeyedMap H (AiPkgRevoke H) := []
  revokedPackages : KeyedMap (List UInt8) (AiPkgRevoke H) := []

namespace JobAiPkgRevocationIndex

def addRevoke (index : JobAiPkgRevocationIndex H) (revoke : AiPkgRevoke H) :
    Bool × JobAiPkgRevocationIndex H :=
  match RevokeKind.ofNumber revoke.kind with
  | some .key =>
    (true, { index with revokedKeys := index.revokedKeys.insert revoke.targetHash revoke })
  | some .attestation =>
    (true, { index with
      revokedAttestations := index.revokedAttestations.insert revoke.targetHash revoke })
  | some .package =>
    if revoke.pkgId = [] ∨ revoke.version = [] then (false, index)
    else
      (true, { index with revokedPackages :=
        index.revokedPackages.insert (packageKey revoke.pkgId revoke.version) revoke })
  | none => (false, index)

def keyRevocation (index : JobAiPkgRevocationIndex H) (publicKey : H) : Option (AiPkgRevoke H) :=
  index.revokedKeys.find publicKey

def attestationRevocation (index : JobAiPkgRevocationIndex H) (attestationLeafHash : H) :
    Option (AiPkgRevoke H) := index.revokedAttestations.find attestationLeafHash

def packageRevocation (index : JobAiPkgRevocationIndex H) (pkgId version : List UInt8) :
    Option (AiPkgRevoke H) := index.revokedPackages.find (packageKey pkgId version)

def isKeyRevoked (index : JobAiPkgRevocationIndex H) (publicKey : H) : Bool :=
  (index.keyRevocation publicKey).isSome

def isAttestationRevoked (index : JobAiPkgRevocationIndex H) (attestationLeafHash : H) : Bool :=
  (index.attestationRevocation attestationLeafHash).isSome

def isPackageRevoked (index : JobAiPkgRevocationIndex H) (pkgId version : List UInt8) : Bool :=
  (index.packageRevocation pkgId version).isSome

/-- The index after a sequence of records. -/
def addAll (revokes : List (AiPkgRevoke H)) : JobAiPkgRevocationIndex H :=
  revokes.foldl (fun index revoke => (index.addRevoke revoke).2) {}

end JobAiPkgRevocationIndex

open JobAiPkgRevocationIndex

namespace AiPkgRevoke

/-- A record that `addRevoke` takes, of this kind. -/
def Accepted (kind : RevokeKind) (revoke : AiPkgRevoke H) : Prop :=
  RevokeKind.ofNumber revoke.kind = some kind ∧
    (kind = .package → revoke.pkgId ≠ [] ∧ revoke.version ≠ [])

instance (kind : RevokeKind) : DecidablePred (Accepted (H := H) kind) :=
  fun _ => inferInstanceAs (Decidable (_ ∧ (_ → _)))

/-- The key of a record in the map of a kind. -/
def keyIn {κ : Type} (kind : RevokeKind) (keyOf : AiPkgRevoke H → κ) (revoke : AiPkgRevoke H) :
    Option κ :=
  if revoke.Accepted kind then some (keyOf revoke) else none

end AiPkgRevoke

open AiPkgRevoke

theorem addRevoke_eq (index : JobAiPkgRevocationIndex H) (revoke : AiPkgRevoke H) :
    (index.addRevoke revoke).2 =
      { revokedKeys := (revoke.keyIn .key targetHash).elim index.revokedKeys fun key =>
          index.revokedKeys.insert key revoke
        revokedAttestations :=
          (revoke.keyIn .attestation targetHash).elim index.revokedAttestations fun key =>
            index.revokedAttestations.insert key revoke
        revokedPackages :=
          (revoke.keyIn .package fun r => packageKey r.pkgId r.version).elim index.revokedPackages
            fun key => index.revokedPackages.insert key revoke } := by
  rw [addRevoke]
  cases hkind : RevokeKind.ofNumber revoke.kind with
  | none => simp [keyIn, Accepted, hkind]
  | some kind =>
    cases kind with
    | key => simp [keyIn, Accepted, hkind]
    | attestation => simp [keyIn, Accepted, hkind]
    | package =>
      by_cases hempty : revoke.pkgId = [] ∨ revoke.version = []
      · have hnot : ¬(revoke.pkgId ≠ [] ∧ revoke.version ≠ []) := by tauto
        simp [keyIn, Accepted, hkind, hempty, hnot]
      · have hboth : revoke.pkgId ≠ [] ∧ revoke.version ≠ [] := by tauto
        simp [keyIn, Accepted, hkind, hboth]

theorem addAll_eq (revokes : List (AiPkgRevoke H)) :
    addAll revokes =
      { revokedKeys := KeyedMap.insertAll (keyIn .key targetHash) [] revokes
        revokedAttestations := KeyedMap.insertAll (keyIn .attestation targetHash) [] revokes
        revokedPackages :=
          KeyedMap.insertAll (keyIn .package fun r => packageKey r.pkgId r.version) [] revokes } := by
  induction revokes using List.reverseRecOn with
  | nil => rfl
  | append_singleton revokes revoke ih =>
    rw [addAll, foldl_concat]
    change ((addAll revokes).addRevoke revoke).2 = _
    rw [addRevoke_eq, ih]
    simp [KeyedMap.insertAll]

omit [DecidableEq H] in
/-- What a map says about a key: the last accepted record of the kind with that key. -/
theorem find_insertAll_keyIn {κ : Type} [DecidableEq κ] (kind : RevokeKind)
    (keyOf : AiPkgRevoke H → κ) (revokes : List (AiPkgRevoke H)) (key : κ) :
    (KeyedMap.insertAll (keyIn kind keyOf) [] revokes).find key =
      (revokes.filter fun r => r.Accepted kind ∧ keyOf r = key).getLast? := by
  have hfilter : (fun r => decide (keyIn kind keyOf r = some key)) =
      fun r : AiPkgRevoke H => decide (r.Accepted kind ∧ keyOf r = key) := by
    funext r
    rw [keyIn, decide_eq_decide]
    split <;> simp [*]
  rw [KeyedMap.find_insertAll, hfilter, KeyedMap.find, Option.or_none]

/-- The lookups depend on the accepted records of their own kind with exactly what is asked for,
and the last of these is the one that is found. -/
structure ExactLookups (revokes : List (AiPkgRevoke H)) : Prop where
  key : ∀ publicKey, (addAll revokes).keyRevocation publicKey =
    (revokes.filter fun r => r.Accepted .key ∧ r.targetHash = publicKey).getLast?
  keyRevoked : ∀ publicKey, (addAll revokes).isKeyRevoked publicKey = true ↔
    ∃ r ∈ revokes, r.Accepted .key ∧ r.targetHash = publicKey
  attestation : ∀ leafHash, (addAll revokes).attestationRevocation leafHash =
    (revokes.filter fun r => r.Accepted .attestation ∧ r.targetHash = leafHash).getLast?
  attestationRevoked : ∀ leafHash, (addAll revokes).isAttestationRevoked leafHash = true ↔
    ∃ r ∈ revokes, r.Accepted .attestation ∧ r.targetHash = leafHash
  package : ∀ pkgId version, (addAll revokes).packageRevocation pkgId version =
    (revokes.filter fun r => r.Accepted .package ∧ r.pkgId = pkgId ∧ r.version = version).getLast?
  packageRevoked : ∀ pkgId version, (addAll revokes).isPackageRevoked pkgId version = true ↔
    ∃ r ∈ revokes, r.Accepted .package ∧ r.pkgId = pkgId ∧ r.version = version
  rejected : ∀ (index : JobAiPkgRevocationIndex H) (r : AiPkgRevoke H),
    (index.addRevoke r).1 = false → (index.addRevoke r).2 = index

theorem addRevoke_rejected (index : JobAiPkgRevocationIndex H) (r : AiPkgRevoke H)
    (h : (index.addRevoke r).1 = false) : (index.addRevoke r).2 = index := by
  rw [addRevoke] at *
  split at h <;> try cases h
  · split at h
    · next hempty => rw [if_pos hempty]
    · cases h
  · rfl

/-- Neither part of an accepted package record contains the separator. -/
def SeparatorFree (revokes : List (AiPkgRevoke H)) : Prop :=
  ∀ r ∈ revokes, r.Accepted .package → unitSeparator ∉ r.pkgId ∧ unitSeparator ∉ r.version

theorem packageKey_inj {p v p' v' : List UInt8} (hp : unitSeparator ∉ p) (hv : unitSeparator ∉ v) :
    packageKey p v = packageKey p' v' ↔ p = p' ∧ v = v' := by
  rw [packageKey, packageKey, append_cons_inj_of_notMem hp hv]
  tauto

theorem exactLookups_of_separatorFree {revokes : List (AiPkgRevoke H)}
    (h : SeparatorFree revokes) : ExactLookups revokes := by
  have hpackage : ∀ pkgId version, (addAll revokes).packageRevocation pkgId version =
      (revokes.filter fun r =>
        r.Accepted .package ∧ r.pkgId = pkgId ∧ r.version = version).getLast? := by
    intro pkgId version
    rw [packageRevocation, addAll_eq, find_insertAll_keyIn]
    congr 1
    refine filter_congr fun r hr => decide_eq_decide.mpr (and_congr_right fun haccepted => ?_)
    exact packageKey_inj (h r hr haccepted).1 (h r hr haccepted).2
  have hkey : ∀ publicKey, (addAll revokes).keyRevocation publicKey =
      (revokes.filter fun r => r.Accepted .key ∧ r.targetHash = publicKey).getLast? := by
    intro publicKey
    rw [keyRevocation, addAll_eq, find_insertAll_keyIn]
  have hattestation : ∀ leafHash, (addAll revokes).attestationRevocation leafHash =
      (revokes.filter fun r => r.Accepted .attestation ∧ r.targetHash = leafHash).getLast? := by
    intro leafHash
    rw [attestationRevocation, addAll_eq, find_insertAll_keyIn]
  constructor
  · exact hkey
  · intro publicKey
    rw [isKeyRevoked, hkey]
    simp
  · exact hattestation
  · intro leafHash
    rw [isAttestationRevoked, hattestation]
    simp
  · exact hpackage
  · intro pkgId version
    rw [isPackageRevoked, hpackage]
    simp
  · exact addRevoke_rejected

/-- Two pairs with one key get one answer, which is about one of them at most. -/
theorem eq_of_packageKey_eq {revokes : List (AiPkgRevoke H)} (h : ExactLookups revokes)
    {r : AiPkgRevoke H} (hr : r ∈ revokes) (haccepted : r.Accepted .package)
    {pkgId version : List UInt8} (hkey : packageKey pkgId version = packageKey r.pkgId r.version) :
    pkgId = r.pkgId ∧ version = r.version := by
  have hsame : (addAll revokes).packageRevocation pkgId version =
      (addAll revokes).packageRevocation r.pkgId r.version := by
    rw [packageRevocation, packageRevocation, hkey]
  have hfound : (addAll revokes).isPackageRevoked r.pkgId r.version = true :=
    (h.packageRevoked _ _).mpr ⟨r, hr, haccepted, rfl, rfl⟩
  obtain ⟨last, hlast⟩ := Option.isSome_iff_exists.mp hfound
  have hasked : ∀ {p v : List UInt8}, (addAll revokes).packageRevocation p v = some last →
      last.pkgId = p ∧ last.version = v := by
    intro p v hfind
    rw [h.package] at hfind
    have hmem := mem_of_getLast? hfind
    simp only [mem_filter, decide_eq_true_eq] at hmem
    exact hmem.2.2
  obtain ⟨hpkg, hversion⟩ := hasked (hsame.trans hlast)
  obtain ⟨hpkg', hversion'⟩ := hasked hlast
  exact ⟨hpkg.symm.trans hpkg', hversion.symm.trans hversion'⟩

/-- The lookups are exact exactly when no accepted package record has the separator in it. -/
theorem exactLookups_iff (revokes : List (AiPkgRevoke H)) :
    ExactLookups revokes ↔ SeparatorFree revokes := by
  refine ⟨fun h r hr haccepted => ⟨?_, ?_⟩, exactLookups_of_separatorFree⟩
  · intro hmem
    obtain ⟨front, back, hsplit⟩ := append_of_mem hmem
    have hkey : packageKey front (back ++ unitSeparator :: r.version) =
        packageKey r.pkgId r.version := by
      rw [packageKey, packageKey, hsplit, append_assoc, cons_append]
    have hlength := congrArg List.length (eq_of_packageKey_eq h hr haccepted hkey).2
    rw [length_append, length_cons] at hlength
    omega
  · intro hmem
    obtain ⟨front, back, hsplit⟩ := append_of_mem hmem
    have hkey : packageKey (r.pkgId ++ unitSeparator :: front) back =
        packageKey r.pkgId r.version := by
      rw [packageKey, packageKey, hsplit, append_assoc, cons_append]
    have hlength := congrArg List.length (eq_of_packageKey_eq h hr haccepted hkey).1
    rw [length_append, length_cons] at hlength
    omega

/-- One record for `a` in version `\x1fb` revokes `a\x1f` in version `b` as well. -/
theorem separator_shared :
    (addAll [(⟨3, 0, [97], [unitSeparator, 98], 1, 0, 0, []⟩ : AiPkgRevoke Nat)]).isPackageRevoked
      [97, unitSeparator] [98] = true ∧
    ¬∃ r ∈ [(⟨3, 0, [97], [unitSeparator, 98], 1, 0, 0, []⟩ : AiPkgRevoke Nat)],
      r.Accepted .package ∧ r.pkgId = [97, unitSeparator] ∧ r.version = [98] := by
  refine ⟨rfl, ?_⟩
  rintro ⟨r, hr, -, hpkg, -⟩
  rw [mem_singleton.mp hr] at hpkg
  cases hpkg

end JobAiPkg
