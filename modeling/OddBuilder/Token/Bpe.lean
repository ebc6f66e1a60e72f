import Mathlib.Data.List.Sort
import OddBuilder.Library.PairMerging
import OddBuilder.Token.Vocab

/-!
# Byte-pair encoding

The merge rules with their rank table, and the merging loop: a doubly linked list
inside a vector of symbols and a priority queue whose entries are checked only
when they come out. A link that leads nowhere (`kInvalidId`) is `none`. The byte
pair table beside the rank table is written but never read, and left out.
-/

namespace JobTokenizer

structure MergeRule where
  left : TokenId
  right : TokenId
  newId : TokenId
deriving DecidableEq

def makePairKey (left right : TokenId) : UInt64 :=
  (left.toUInt32.toUInt64 <<< 32) ||| right.toUInt32.toUInt64

structure Bpe where
  rules : List MergeRule := []
  pairToRank : AList (fun _ : UInt64 => UInt32) := ∅

namespace Bpe

variable {a b : TokenId} {rules : List MergeRule}

def addMergeRule (bpe : Bpe) (left right newId : TokenId) : Bpe where
  rules := bpe.rules ++ [⟨left, right, newId⟩]
  pairToRank := bpe.pairToRank.insert (makePairKey left right) (UInt32.ofNat bpe.rules.length)

/-- The loop of `rebuildAccelerators` from an index on. -/
def rankRules (ranks : AList (fun _ : UInt64 => UInt32)) (index : Nat) :
    List MergeRule → AList (fun _ : UInt64 => UInt32)
  | [] => ranks
  | rule :: rules =>
    rankRules (ranks.insert (makePairKey rule.left rule.right) (UInt32.ofNat index)) (index + 1) rules

def rebuildAccelerators (rules : List MergeRule) : Bpe where
  rules := rules
  pairToRank := rankRules ∅ 0 rules

def setMergeRules (_bpe : Bpe) (rules : List MergeRule) : Bpe := rebuildAccelerators rules

def clearRules (_bpe : Bpe) : Bpe := {}

structure Symbol where
  prev : Option Nat
  next : Option Nat
  id : TokenId
deriving DecidableEq

structure QueueElement where
  pos : Nat
  rank : UInt32
  leftId : TokenId
  rightId : TokenId
deriving DecidableEq

/-- `operator>`: by rank, then by position. -/
def QueueElement.gt (a b : QueueElement) : Bool :=
  if a.rank != b.rank then decide (b.rank < a.rank) else decide (b.pos < a.pos)

/-- The priority queue is kept as a list with its top in front. -/
def QueueElement.notGt (a b : QueueElement) : Prop := a.gt b = false

instance : DecidableRel QueueElement.notGt := fun a b => inferInstanceAs (Decidable (a.gt b = false))

def push (queue : List QueueElement) (e : QueueElement) : List QueueElement :=
  queue.orderedInsert QueueElement.notGt e

def pushPair (bpe : Bpe) (symbols : List Symbol) (queue : List QueueElement) (position : Option Nat) :
    List QueueElement :=
  match position with
  | none => queue
  | some p =>
    match symbols[p]? with
    | none => queue
    | some s =>
      match s.next with
      | none => queue
      | some next =>
        match symbols[next]? with
        | none => queue
        | some t =>
          match bpe.pairToRank.lookup (makePairKey s.id t.id) with
          | none => queue
          | some rank => push queue ⟨p, rank, s.id, t.id⟩

/-- The symbols before any merge. -/
def initialSymbols (initialIds : List TokenId) : List Symbol :=
  initialIds.mapIdx fun i id =>
    { prev := if i = 0 then none else some (i - 1)
      next := if i + 1 = initialIds.length then none else some (i + 1)
      id := id }

def initialQueue (bpe : Bpe) (symbols : List Symbol) : List QueueElement :=
  (List.range (symbols.length - 1)).foldl (fun queue i => bpe.pushPair symbols queue (some i)) []

/-- The merge itself: the left symbol takes the new id, the right one is unlinked and killed. -/
def mergeSymbols (symbols : List Symbol) (pos next : Nat) (nextNext : Option Nat) (newId : TokenId) :
    List Symbol :=
  let symbols := symbols.modify pos fun s => { s with id := newId, next := nextNext }
  let symbols := match nextNext with
    | none => symbols
    | some n => symbols.modify n fun s => { s with prev := some pos }
  symbols.modify next fun _ => ⟨none, none, kInvalidToken⟩

/-- One turn of the loop with the entry that came out; a stale entry changes nothing. -/
def mergeTop (bpe : Bpe) (symbols : List Symbol) (queue : List QueueElement) (top : QueueElement) :
    List Symbol × List QueueElement :=
  match symbols[top.pos]? with
  | none => (symbols, queue)
  | some s =>
    if s.id ≠ top.leftId then (symbols, queue)
    else
      match s.next with
      | none => (symbols, queue)
      | some next =>
        match symbols[next]? with
        | none => (symbols, queue)
        | some t =>
          if t.id ≠ top.rightId then (symbols, queue)
          else
            match bpe.rules[top.rank.toNat]? with
            | none => (symbols, queue)
            | some rule =>
              let symbols := mergeSymbols symbols top.pos next t.next rule.newId
              let queue := bpe.pushPair symbols queue ((symbols[top.pos]?).bind Symbol.prev)
              (symbols, bpe.pushPair symbols queue (some top.pos))

/-- The queue loop, for at most `turns` turns. -/
def mergeLoop (bpe : Bpe) : Nat → List Symbol → List QueueElement → Option (List Symbol)
  | _, symbols, [] => some symbols
  | 0, _, _ :: _ => none
  | turns + 1, symbols, top :: queue =>
    let (symbols, queue) := bpe.mergeTop symbols queue top
    bpe.mergeLoop turns symbols queue

/-- The ids along the links, for at most `turns` turns. -/
def collect (symbols : List Symbol) : Nat → Option Nat → Option (List TokenId)
  | _, none => some []
  | 0, some _ => none
  | turns + 1, some current =>
    match symbols[current]? with
    | none => some []
    | some s => (collect symbols turns s.next).map (s.id :: ·)

/-- `none` when one of the loops has not ended within its turns. -/
def applyMerges (bpe : Bpe) (turns : Nat) (initialIds : List TokenId) : Option (List TokenId) :=
  if initialIds.isEmpty then some []
  else if bpe.rules.isEmpty || bpe.pairToRank.entries.isEmpty then some initialIds
  else do
    let symbols := initialSymbols initialIds
    let symbols ← bpe.mergeLoop turns symbols (bpe.initialQueue symbols)
    collect symbols turns (some 0)

/-- The number of turns that always suffices. -/
def turnsFor (initialIds : List TokenId) : Nat := 3 * initialIds.length

theorem makePairKey_toNat (left right : TokenId) :
    (makePairKey left right).toNat = left.toUInt32.toNat * 2 ^ 32 + right.toUInt32.toNat := by
  have hl := left.toUInt32.toNat_lt
  have hr := right.toUInt32.toNat_lt
  have hshift : left.toUInt32.toNat <<< 32 = left.toUInt32.toNat * 2 ^ 32 := Nat.shiftLeft_eq _ _
  simp only [makePairKey, UInt64.toNat_or, UInt64.toNat_shiftLeft, UInt32.toNat_toUInt64]
  have hmod : (32 : UInt64).toNat % 64 = 32 := rfl
  rw [hmod, Nat.mod_eq_of_lt (by omega), ← hshift, ← Nat.shiftLeft_add_eq_or_of_lt hr]

/-- The key of a pair tells both its ids. -/
theorem makePairKey_inj {c d : TokenId} (h : makePairKey a b = makePairKey c d) :
    a = c ∧ b = d := by
  have hnat := congrArg UInt64.toNat h
  rw [makePairKey_toNat, makePairKey_toNat] at hnat
  have hb := b.toUInt32.toNat_lt
  have hd := d.toUInt32.toNat_lt
  have hleft : a.toUInt32 = c.toUInt32 := UInt32.toNat_inj.mp (by omega)
  have hright : b.toUInt32 = d.toUInt32 := UInt32.toNat_inj.mp (by omega)
  exact ⟨Int32.toBitVec.inj (congrArg UInt32.toBitVec hleft),
    Int32.toBitVec.inj (congrArg UInt32.toBitVec hright)⟩

/-- The last rule for a pair, with its place in the list: `found` is what the rules before it say. -/
def lastRule (found : Option (Nat × TokenId)) (index : Nat) (a b : TokenId) :
    List MergeRule → Option (Nat × TokenId)
  | [] => found
  | rule :: rules =>
    lastRule (if rule.left = a ∧ rule.right = b then some (index, rule.newId) else found) (index + 1) a b
      rules

/-- What a list of rules says about a pair: its rank is the place of the last rule for it. -/
def ruleFor (rules : List MergeRule) (a b : TokenId) : Option (Nat × TokenId) :=
  lastRule none 0 a b rules

/-- What the rank table and the rules say about a pair; the rank has gone through 32 bits. -/
def tableRule (bpe : Bpe) (a b : TokenId) : Option (Nat × TokenId) := do
  let rank ← bpe.pairToRank.lookup (makePairKey a b)
  let rule ← bpe.rules[rank.toNat]?
  some (rank.toNat, rule.newId)

theorem lookup_rankRules (rules : List MergeRule) (ranks : AList (fun _ : UInt64 => UInt32))
    (index : Nat) (found : Option (Nat × TokenId)) (a b : TokenId)
    (h : ranks.lookup (makePairKey a b) = found.map fun x => UInt32.ofNat x.1) :
    (rankRules ranks index rules).lookup (makePairKey a b) =
      (lastRule found index a b rules).map fun x => UInt32.ofNat x.1 := by
  induction rules generalizing ranks index found with
  | nil => exact h
  | cons rule rules ih =>
    apply ih
    by_cases hpair : rule.left = a ∧ rule.right = b
    · obtain ⟨rfl, rfl⟩ := hpair
      rw [AList.lookup_insert, if_pos ⟨rfl, rfl⟩]
      rfl
    · have hkey : makePairKey a b ≠ makePairKey rule.left rule.right := by
        intro heq
        obtain ⟨ha, hb⟩ := makePairKey_inj heq
        exact hpair ⟨ha.symm, hb.symm⟩
      rw [AList.lookup_insert_ne hkey, if_neg hpair, h]

theorem rankRules_append (ranks : AList (fun _ : UInt64 => UInt32)) (index : Nat)
    (rules : List MergeRule) (rule : MergeRule) :
    rankRules ranks index (rules ++ [rule]) =
      (rankRules ranks index rules).insert (makePairKey rule.left rule.right)
        (UInt32.ofNat (index + rules.length)) := by
  induction rules generalizing ranks index with
  | nil => rfl
  | cons r rules ih =>
    simp only [List.cons_append, rankRules, ih, List.length_cons]
    congr 2
    omega

/-- The objects that the three calls which change the rules make. -/
inductive Built : Bpe → Prop
  | new : Built {}
  | addMergeRule {bpe : Bpe} (left right newId : TokenId) :
    Built bpe → Built (bpe.addMergeRule left right newId)
  | setMergeRules {bpe : Bpe} (rules : List MergeRule) : Built bpe → Built (bpe.setMergeRules rules)
  | clearRules {bpe : Bpe} : Built bpe → Built bpe.clearRules

/-- However the rules came in, the table is the one that rebuilding makes. -/
theorem Built.eq_rebuild {bpe : Bpe} (built : bpe.Built) : bpe = rebuildAccelerators bpe.rules := by
  induction built with
  | new => rfl
  | @addMergeRule bpe left right newId _ ih =>
    have hranks : bpe.pairToRank = rankRules ∅ 0 bpe.rules := congrArg Bpe.pairToRank ih
    simp [Bpe.addMergeRule, rebuildAccelerators, rankRules_append, hranks]
  | setMergeRules rules _ _ => rfl
  | clearRules _ _ => rfl

theorem lastRule_cases (rules : List MergeRule) (found : Option (Nat × TokenId)) (index : Nat)
    (a b : TokenId) {rank : Nat} {newId : TokenId}
    (h : lastRule found index a b rules = some (rank, newId)) :
    found = some (rank, newId) ∨
      ∃ i, rank = index + i ∧ rules[i]? = some ⟨a, b, newId⟩ := by
  induction rules generalizing found index with
  | nil => exact Or.inl h
  | cons rule rules ih =>
    rcases ih _ _ h with hfound | ⟨i, hi, hrule⟩
    · split at hfound
      · rename_i hpair
        obtain ⟨rfl, rfl⟩ := hpair
        obtain ⟨rfl, rfl⟩ := Prod.mk.inj (Option.some.inj hfound)
        exact Or.inr ⟨0, rfl, rfl⟩
      · exact Or.inl hfound
    · exact Or.inr ⟨i + 1, by omega, hrule⟩

/-- The rule that decides a pair stands in the list at the place that is its rank. -/
theorem ruleFor_getElem {newId : TokenId} {rank : Nat}
    (h : ruleFor rules a b = some (rank, newId)) : rules[rank]? = some ⟨a, b, newId⟩ := by
  rcases lastRule_cases rules none 0 a b h with hnone | ⟨i, hi, hrule⟩
  · cases hnone
  · rwa [hi, Nat.zero_add]

theorem lookup_eq (rules : List MergeRule) (a b : TokenId) :
    (rebuildAccelerators rules).pairToRank.lookup (makePairKey a b) =
      (ruleFor rules a b).map fun x => UInt32.ofNat x.1 :=
  lookup_rankRules rules ∅ 0 none a b rfl

/-- Ranks below `2 ^ 32` survive the table. -/
theorem tableRule_eq (h : rules.length ≤ 2 ^ 32) :
    (rebuildAccelerators rules).tableRule = ruleFor rules := by
  funext a b
  simp only [tableRule, lookup_eq]
  cases hrule : ruleFor rules a b with
  | none => rfl
  | some found =>
    obtain ⟨rank⟩ := found
    have hplace := ruleFor_getElem hrule
    have hlt : rank < rules.length := (List.getElem?_eq_some_iff.mp hplace).1
    have hrank : (UInt32.ofNat rank).toNat = rank := UInt32.toNat_ofNat_of_lt' (by
      simp only [UInt32.size]
      omega)
    simp [hrank, rebuildAccelerators, hplace]

/-- A pair that the table has also has a rule at the narrowed rank. -/
theorem tableRule_of_lookup {rank : UInt32}
    (h : (rebuildAccelerators rules).pairToRank.lookup (makePairKey a b) = some rank) :
    ∃ newId, (rebuildAccelerators rules).tableRule a b = some (rank.toNat, newId) := by
  have hlookup := h
  rw [lookup_eq] at h
  obtain ⟨⟨index⟩, hrule, hrank⟩ := Option.map_eq_some_iff.mp h
  have hlt : index < rules.length := (List.getElem?_eq_some_iff.mp (ruleFor_getElem hrule)).1
  have hnarrow : rank.toNat < rules.length := by
    rw [← hrank]
    simp only [UInt32.toNat_ofNat']
    omega
  have hplace : (rebuildAccelerators rules).rules[rank.toNat]? = some rules[rank.toNat] :=
    List.getElem?_eq_getElem hnarrow
  refine ⟨rules[rank.toNat].newId, ?_⟩
  simp [tableRule, hlookup, hplace]

end Bpe

end JobTokenizer
