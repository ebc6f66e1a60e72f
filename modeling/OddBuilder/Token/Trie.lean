import Mathlib.Data.List.Pairwise
import OddBuilder.Token.Vocab

/-!
# The prefix trie

Nodes in one vector, each with its children in the order of their bytes. A child is
found by binary search, which in an ordered list is the first entry that is not below
the byte; a node is named by its index, cut to 32 bits.
-/

namespace JobTokenizer

open List Option

namespace Trie

def kInvalidNode : UInt32 := 4294967295

structure Child where
  byte : UInt8
  nodeIndex : UInt32

structure Node where
  tokenId : TokenId := kInvalidToken
  children : List Child := []

structure Match where
  id : TokenId
  length : Nat
deriving DecidableEq

end Trie

/-- A new trie holds its root. -/
structure Trie where
  nodes : List Trie.Node := [{}]

namespace Trie

variable {trie : Trie} {i current : UInt32}

/-- `std::lower_bound` over the children. -/
def lowerBound (children : List Child) (byte : UInt8) : Nat :=
  children.findIdx fun edge => !decide (edge.byte < byte)

def findChild (trie : Trie) (nodeIndex : UInt32) (byte : UInt8) : UInt32 :=
  match trie.nodes[nodeIndex.toNat]? with
  | none => kInvalidNode
  | some node =>
    match node.children[lowerBound node.children byte]? with
    | none => kInvalidNode
    | some edge => if edge.byte = byte then edge.nodeIndex else kInvalidNode

/-- `m_nodes[current].tokenId`. -/
def tokenIdAt (trie : Trie) (nodeIndex : UInt32) : TokenId :=
  ((trie.nodes[nodeIndex.toNat]?).map Node.tokenId).getD kInvalidToken

/-- A new node, entered among the children of another one. -/
def addChild (trie : Trie) (current : UInt32) (byte : UInt8) : Trie where
  nodes := (trie.nodes ++ [({} : Node)]).modify current.toNat fun node =>
    { node with
      children := node.children.insertIdx (lowerBound node.children byte)
        ⟨byte, UInt32.ofNat trie.nodes.length⟩ }

/-- The loop of `insert` from a node on: the trie with nodes for all of the key, and the last one. -/
def descend (trie : Trie) (current : UInt32) : Text → Trie × UInt32
  | [] => (trie, current)
  | c :: key =>
    let next := trie.findChild current c
    if next = kInvalidNode then
      (trie.addChild current c).descend (UInt32.ofNat trie.nodes.length) key
    else trie.descend next key

def setTokenId (trie : Trie) (nodeIndex : UInt32) (id : TokenId) : Trie where
  nodes := trie.nodes.modify nodeIndex.toNat fun node => { node with tokenId := id }

def insert (trie : Trie) (key : Text) (id : TokenId) : Trie :=
  if key.isEmpty || id == kInvalidToken then trie
  else
    let (trie, current) := trie.descend 0 key
    trie.setTokenId current id

/-- The loop of `find` from a node on. -/
def findFrom (trie : Trie) (current : UInt32) : Text → TokenId
  | [] => trie.tokenIdAt current
  | c :: key =>
    let next := trie.findChild current c
    if next = kInvalidNode then kInvalidToken else trie.findFrom next key

def find (trie : Trie) (key : Text) : TokenId := trie.findFrom 0 key

/-- The loop of `findAllPrefixes` from a node on, `i` bytes into the text. -/
def findAllPrefixesFrom (trie : Trie) (current : UInt32) (i : Nat) : Text → List Match
  | [] => []
  | c :: text =>
    let current := trie.findChild current c
    if current = kInvalidNode then []
    else
      let found := if trie.tokenIdAt current ≠ kInvalidToken then [⟨trie.tokenIdAt current, i + 1⟩] else []
      found ++ trie.findAllPrefixesFrom current (i + 1) text

def findAllPrefixes (trie : Trie) (text : Text) : List Match := trie.findAllPrefixesFrom 0 0 text

/-- The prefixes that are listed are those that are found. -/
theorem mem_findAllPrefixesFrom (trie : Trie) (current : UInt32) (i : Nat) (text : Text)
    (found : Match) :
    found ∈ trie.findAllPrefixesFrom current i text ↔
      ∃ length, 0 < length ∧ length ≤ text.length ∧ found.length = i + length ∧
        trie.findFrom current (text.take length) = found.id ∧ found.id ≠ kInvalidToken := by
  induction text generalizing current i with
  | nil =>
    refine iff_of_false (fun h => nomatch h) ?_
    rintro ⟨length, hpos, hle, -⟩
    exact absurd hle (Nat.not_le.mpr hpos)
  | cons c text ih =>
    simp only [findAllPrefixesFrom]
    by_cases hnext : trie.findChild current c = kInvalidNode
    · rw [if_pos hnext]
      refine iff_of_false (fun h => nomatch h) ?_
      rintro ⟨length, hpos, -, -, hfind, hvalid⟩
      obtain ⟨length, rfl⟩ := Nat.exists_eq_add_one.mpr hpos
      rw [take_succ_cons, findFrom, if_pos hnext] at hfind
      exact hvalid hfind.symm
    · rw [if_neg hnext, mem_append, ih]
      constructor
      · rintro (hhere | ⟨length, hpos, hle, hlength, hfind, hvalid⟩)
        · split at hhere
          · rename_i htoken
            obtain rfl := mem_singleton.mp hhere
            refine ⟨1, Nat.one_pos, by simp, rfl, ?_, htoken⟩
            rw [take_succ_cons, findFrom, if_neg hnext]
            rfl
          · cases hhere
        · refine ⟨length + 1, Nat.succ_pos _, Nat.succ_le_succ hle, by omega, ?_, hvalid⟩
          rw [take_succ_cons, findFrom, if_neg hnext]
          exact hfind
      · rintro ⟨length, hpos, hle, hlength, hfind, hvalid⟩
        obtain ⟨length, rfl⟩ := Nat.exists_eq_add_one.mpr hpos
        rw [take_succ_cons, findFrom, if_neg hnext] at hfind
        cases length with
        | zero =>
          left
          have htoken : trie.tokenIdAt (trie.findChild current c) = found.id := hfind
          rw [htoken, if_pos hvalid, mem_singleton]
          cases found
          simp only [Match.mk.injEq, true_and]
          exact hlength
        | succ length =>
          right
          exact ⟨length + 1, Nat.succ_pos _, Nat.le_of_succ_le_succ hle, by omega, hfind, hvalid⟩

theorem mem_findAllPrefixes (trie : Trie) (text : Text) (found : Match) :
    found ∈ trie.findAllPrefixes text ↔ 0 < found.length ∧ found.length ≤ text.length ∧
      trie.find (text.take found.length) = found.id ∧ found.id ≠ kInvalidToken := by
  rw [findAllPrefixes, mem_findAllPrefixesFrom]
  constructor
  · rintro ⟨length, hpos, hle, hlength, hfind, hvalid⟩
    rw [Nat.zero_add] at hlength
    rw [hlength]
    exact ⟨hpos, hle, hfind, hvalid⟩
  · rintro ⟨hpos, hle, hfind, hvalid⟩
    exact ⟨found.length, hpos, hle, (Nat.zero_add _).symm, hfind, hvalid⟩

/-- The bytes of the children are in order, and so different. -/
def Ordered (children : List Child) : Prop := children.Pairwise fun a b => a.byte < b.byte

theorem lowerBound_cons (edge : Child) (children : List Child) (byte : UInt8) :
    lowerBound (edge :: children) byte =
      if edge.byte < byte then lowerBound children byte + 1 else 0 := by
  rw [lowerBound, findIdx_cons]
  by_cases h : edge.byte < byte
  · simp [lowerBound]
  · simp [h]

/-- In an ordered list the search finds the child of the byte. -/
theorem Ordered.search {children : List Child} (ordered : Ordered children) (byte : UInt8) :
    (children[lowerBound children byte]?).filter (fun edge => edge.byte == byte) =
      children.find? fun edge => edge.byte == byte := by
  induction children with
  | nil => rfl
  | cons edge children ih =>
    obtain ⟨hfirst, hrest⟩ := pairwise_cons.mp ordered
    rw [lowerBound_cons]
    by_cases hlt : edge.byte < byte
    · have hne : (edge.byte == byte) = false := by
        rw [beq_eq_false_iff_ne]
        exact UInt8.ne_of_lt hlt
      rw [if_pos hlt, List.getElem?_cons_succ, List.find?_cons_of_neg (by simp [hne]), ih hrest]
    · rw [if_neg hlt, List.getElem?_cons_zero, filter_some]
      by_cases heq : edge.byte = byte
      · rw [if_pos (by simpa using heq), List.find?_cons_of_pos (by simpa using heq)]
      · have hnone : children.find? (fun edge => edge.byte == byte) = none := by
          rw [List.find?_eq_none]
          intro other hother hsame
          have hbelow := hfirst other hother
          rw [beq_iff_eq.mp hsame] at hbelow
          exact hlt hbelow
        rw [if_neg (by simpa using heq), List.find?_cons_of_neg (by simpa using heq), hnone]

theorem find?_first (byte other : UInt8) (nodeIndex : UInt32) (children : List Child) :
    ((⟨byte, nodeIndex⟩ : Child) :: children).find? (fun edge => edge.byte == other) =
      if other = byte then some ⟨byte, nodeIndex⟩ else children.find? fun edge => edge.byte == other := by
  by_cases h : other = byte
  · rw [if_pos h, List.find?_cons_of_pos (by simpa using h.symm)]
  · rw [if_neg h, List.find?_cons_of_neg (by simpa using Ne.symm h)]

/-- A new child is entered at the place of its byte, and the others are found as before. -/
theorem Ordered.insert {children : List Child} (ordered : Ordered children) {byte : UInt8}
    (hnew : children.find? (fun edge => edge.byte == byte) = none) (nodeIndex : UInt32) :
    Ordered (children.insertIdx (lowerBound children byte) ⟨byte, nodeIndex⟩) ∧
    ∀ other, (children.insertIdx (lowerBound children byte) ⟨byte, nodeIndex⟩).find?
        (fun edge => edge.byte == other) =
      if other = byte then some ⟨byte, nodeIndex⟩ else children.find? fun edge => edge.byte == other := by
  induction children with
  | nil =>
    refine ⟨pairwise_singleton _ _, fun other => ?_⟩
    rw [lowerBound, findIdx_nil, insertIdx_zero, find?_first]
  | cons edge children ih =>
    obtain ⟨hfirst, hrest⟩ := pairwise_cons.mp ordered
    have hne : edge.byte ≠ byte := by
      intro heq
      rw [List.find?_cons_of_pos (by simpa using heq)] at hnew
      cases hnew
    rw [List.find?_cons_of_neg (by simpa using hne)] at hnew
    obtain ⟨hordered, hfind⟩ := ih hrest hnew
    rw [lowerBound_cons]
    by_cases hlt : edge.byte < byte
    · rw [if_pos hlt, insertIdx_succ_cons]
      refine ⟨pairwise_cons.mpr ⟨fun other hother => ?_, hordered⟩, fun other => ?_⟩
      · rcases (mem_insertIdx findIdx_le_length).mp hother with rfl | hother
        · exact hlt
        · exact hfirst other hother
      · by_cases hother : edge.byte = other
        · rw [List.find?_cons_of_pos (by simpa using hother), List.find?_cons_of_pos (by simpa using hother),
            if_neg fun hsame => hne (hother.trans hsame)]
        · rw [List.find?_cons_of_neg (by simpa using hother), List.find?_cons_of_neg (by simpa using hother),
            hfind]
    · rw [if_neg hlt]
      have hgt : byte < edge.byte := by
        rcases UInt8.lt_or_lt_of_ne hne with h | h
        · exact absurd h hlt
        · exact h
      refine ⟨pairwise_cons.mpr ⟨fun other hother => ?_, ordered⟩, fun other => ?_⟩
      · rcases mem_cons.mp hother with rfl | hother
        · exact hgt
        · exact UInt8.lt_trans hgt (hfirst other hother)
      · exact find?_first byte other nodeIndex (edge :: children)

/-- A trie whose node indexes fit: children are in order, lie behind the root, and have one parent. -/
structure WellFormed (trie : Trie) : Prop where
  pos : 0 < trie.nodes.length
  small : trie.nodes.length ≤ 4294967295
  ordered : ∀ node ∈ trie.nodes, Ordered node.children
  inside : ∀ node ∈ trie.nodes, ∀ edge ∈ node.children,
    edge.nodeIndex ≠ 0 ∧ edge.nodeIndex.toNat < trie.nodes.length
  parent : ∀ i j byte byte', trie.findChild i byte = trie.findChild j byte' →
    trie.findChild i byte ≠ kInvalidNode → i = j ∧ byte = byte'

/-- The node that a key leads to from another one. -/
def follow (trie : Trie) (current : UInt32) (key : Text) : UInt32 := key.foldl trie.findChild current

/-- In an ordered node the search among its children is a search for the byte. -/
theorem findChild_eq (ordered : ∀ node ∈ trie.nodes, Ordered node.children) (byte : UInt8) :
    trie.findChild i byte =
      (((trie.nodes[i.toNat]?).bind fun node =>
        node.children.find? fun edge => edge.byte == byte).map Child.nodeIndex).getD kInvalidNode := by
  unfold findChild
  cases hnode : trie.nodes[i.toNat]? with
  | none => rfl
  | some node =>
    dsimp only [bind_some]
    rw [← (ordered node (mem_of_getElem? hnode)).search byte]
    cases node.children[lowerBound node.children byte]? with
    | none => rfl
    | some edge =>
      dsimp only
      rw [filter_some]
      by_cases h : edge.byte = byte
      · rw [if_pos h, if_pos (by simpa using h)]
        rfl
      · rw [if_neg h, if_neg (by simpa using h)]
        rfl

theorem findChild_mem {byte : UInt8} (h : trie.findChild i byte ≠ kInvalidNode) :
    ∃ node ∈ trie.nodes, ∃ edge ∈ node.children, edge.nodeIndex = trie.findChild i byte := by
  unfold findChild at h ⊢
  split at h
  · exact absurd rfl h
  · rename_i node hnode
    split at h
    · exact absurd rfl h
    · rename_i edge hedge
      split at h
      · rename_i hbyte
        exact ⟨node, mem_of_getElem? hnode, edge, mem_of_getElem? hedge, (if_pos hbyte).symm⟩
      · exact absurd rfl h

theorem tokenIdAt_outside (h : trie.nodes.length ≤ i.toNat) : trie.tokenIdAt i = kInvalidToken := by
  rw [tokenIdAt, List.getElem?_eq_none h]
  rfl

theorem findChild_outside (h : trie.nodes.length ≤ i.toNat) (byte : UInt8) :
    trie.findChild i byte = kInvalidNode := by
  rw [findChild, List.getElem?_eq_none h]

namespace WellFormed

variable {trie : Trie} {current : UInt32} {c : UInt8}

theorem outside (h : trie.WellFormed) : trie.nodes.length ≤ kInvalidNode.toNat := h.small

theorem child (h : trie.WellFormed) {i : UInt32} {byte : UInt8}
    (hvalid : trie.findChild i byte ≠ kInvalidNode) :
    trie.findChild i byte ≠ 0 ∧ (trie.findChild i byte).toNat < trie.nodes.length := by
  obtain ⟨node, hnode, edge, hedge, hindex⟩ := findChild_mem hvalid
  rw [← hindex]
  exact h.inside node hnode edge hedge

theorem follow_invalid (h : trie.WellFormed) (key : Text) : trie.follow kInvalidNode key = kInvalidNode := by
  induction key with
  | nil => rfl
  | cons c key ih =>
    rw [follow, foldl_cons, findChild_outside h.outside]
    exact ih

/-- A key is found at the node it leads to. -/
theorem findFrom_eq (h : trie.WellFormed) (current : UInt32) (key : Text) :
    trie.findFrom current key = trie.tokenIdAt (trie.follow current key) := by
  induction key generalizing current with
  | nil => rfl
  | cons c key ih =>
    rw [findFrom]
    split
    · rename_i hnone
      rw [follow, foldl_cons, hnone, ← follow, h.follow_invalid, tokenIdAt_outside h.outside]
    · exact ih _

/-- No two keys lead from the root to the same node. -/
theorem follow_inj (h : trie.WellFormed) {key key' : Text} (hsame : trie.follow 0 key = trie.follow 0 key')
    (hvalid : trie.follow 0 key ≠ kInvalidNode) : key = key' := by
  have hroot : ∀ (text : Text) (byte : UInt8), trie.follow 0 (text ++ [byte]) ≠ kInvalidNode →
      trie.follow 0 (text ++ [byte]) ≠ 0 := by
    intro text byte hne
    rw [follow, foldl_concat] at hne ⊢
    exact (h.child hne).1
  induction key using List.reverseRecOn generalizing key' with
  | nil =>
    cases key' using List.reverseRecOn with
    | nil => rfl
    | append_singleton key' c' =>
      rw [hsame] at hvalid
      exact absurd hsame.symm (hroot key' c' hvalid)
  | append_singleton key c ih =>
    cases key' using List.reverseRecOn with
    | nil => exact absurd hsame (hroot key c hvalid)
    | append_singleton key' c' =>
      simp only [follow, foldl_concat] at hsame hvalid
      obtain ⟨hparent, rfl⟩ := h.parent _ _ _ _ hsame hvalid
      rw [ih hparent]
      intro hnone
      rw [follow] at hnone
      rw [hnone, findChild_outside h.outside] at hvalid
      exact hvalid rfl

end WellFormed

def grow (node : Node) (byte : UInt8) (nodeIndex : UInt32) : Node :=
  { node with children := node.children.insertIdx (lowerBound node.children byte) ⟨byte, nodeIndex⟩ }

theorem addChild_getElem? (hcurrent : current.toNat < trie.nodes.length) (c : UInt8) (i : Nat) :
    (trie.addChild current c).nodes[i]? =
      if i = current.toNat then
        (trie.nodes[i]?).map fun node => grow node c (UInt32.ofNat trie.nodes.length)
      else if i = trie.nodes.length then some {}
      else trie.nodes[i]? := by
  rw [addChild, List.getElem?_modify]
  by_cases hi : i = current.toNat
  · subst hi
    rw [List.getElem?_append_left hcurrent]
    simp [grow]
  · rw [if_neg hi]
    simp only [Option.map_eq_map, if_neg (Ne.symm hi), Option.map_id']
    by_cases hlast : i = trie.nodes.length
    · subst hlast
      rw [if_pos rfl, List.getElem?_append_right (Nat.le_refl _), Nat.sub_self]
      rfl
    · rw [if_neg hlast]
      by_cases hlt : i < trie.nodes.length
      · exact List.getElem?_append_left hlt
      · rw [List.getElem?_eq_none (by rw [length_append, length_singleton]; omega),
          List.getElem?_eq_none (Nat.not_lt.mp hlt)]

theorem addChild_length (trie : Trie) (current : UInt32) (c : UInt8) :
    (trie.addChild current c).nodes.length = trie.nodes.length + 1 := by
  rw [addChild, length_modify, length_append, length_singleton]

theorem addChild_tokenIdAt (hcurrent : current.toNat < trie.nodes.length) (c : UInt8) (i : UInt32) :
    (trie.addChild current c).tokenIdAt i = trie.tokenIdAt i := by
  rw [tokenIdAt, addChild_getElem? hcurrent]
  split
  · rw [Option.map_map]
    rfl
  · split
    · rename_i hlast
      rw [tokenIdAt_outside (Nat.le_of_eq hlast.symm)]
      rfl
    · rfl

/-- A node of the longer trie is a node of the shorter one, the grown one, or the new one. -/
theorem mem_addChild (hcurrent : current.toNat < trie.nodes.length) {c : UInt8} {node : Node}
    (h : node ∈ (trie.addChild current c).nodes) :
    node ∈ trie.nodes ∨ node = {} ∨
      ∃ old, trie.nodes[current.toNat]? = some old ∧
        node = grow old c (UInt32.ofNat trie.nodes.length) := by
  obtain ⟨i, hi⟩ := mem_iff_getElem?.mp h
  rw [addChild_getElem? hcurrent] at hi
  split at hi
  · rename_i hcur
    obtain ⟨old, hold, rfl⟩ := map_eq_some_iff.mp hi
    rw [hcur] at hold
    exact Or.inr (Or.inr ⟨old, hold, rfl⟩)
  · split at hi
    · exact Or.inr (Or.inl (Option.some.inj hi).symm)
    · exact Or.inl (mem_of_getElem? hi)

namespace WellFormed

variable {trie : Trie} {current : UInt32} {c : UInt8}

/-- A byte without a child is not among the children. -/
theorem find?_eq_none (h : trie.WellFormed) (hnone : trie.findChild current c = kInvalidNode) {node : Node}
    (hnode : trie.nodes[current.toNat]? = some node) :
    node.children.find? (fun edge => edge.byte == c) = none := by
  cases hfind : node.children.find? (fun edge => edge.byte == c) with
  | none => rfl
  | some edge =>
    rw [findChild_eq h.ordered, hnode, bind_some, hfind] at hnone
    have hinside := (h.inside node (mem_of_getElem? hnode) edge (mem_of_find?_eq_some hfind)).2
    change edge.nodeIndex = kInvalidNode at hnone
    rw [hnone] at hinside
    exact absurd hinside (Nat.not_lt.mpr h.outside)

theorem addChild_ordered (h : trie.WellFormed) (hcurrent : current.toNat < trie.nodes.length)
    (hnone : trie.findChild current c = kInvalidNode) :
    ∀ node ∈ (trie.addChild current c).nodes, Ordered node.children := by
  intro node hnode
  rcases mem_addChild hcurrent hnode with hold | rfl | ⟨old, hold, rfl⟩
  · exact h.ordered node hold
  · exact List.Pairwise.nil
  · exact ((h.ordered old (mem_of_getElem? hold)).insert (h.find?_eq_none hnone hold) _).1

/-- The new node is the child of the byte, and all others are as before. -/
theorem addChild_findChild (h : trie.WellFormed) (hcurrent : current.toNat < trie.nodes.length)
    (hnone : trie.findChild current c = kInvalidNode) (i : UInt32) (byte : UInt8) :
    (trie.addChild current c).findChild i byte =
      if i = current ∧ byte = c then UInt32.ofNat trie.nodes.length else trie.findChild i byte := by
  rw [findChild_eq (h.addChild_ordered hcurrent hnone), addChild_getElem? hcurrent]
  by_cases hi : i = current
  · subst hi
    obtain ⟨node, hnode⟩ : ∃ node, trie.nodes[i.toNat]? = some node :=
      ⟨_, List.getElem?_eq_getElem hcurrent⟩
    have hinsert := ((h.ordered node (mem_of_getElem? hnode)).insert (h.find?_eq_none hnone hnode)
      (UInt32.ofNat trie.nodes.length)).2 byte
    rw [if_pos rfl, hnode, map_some, bind_some, grow, hinsert]
    by_cases hbyte : byte = c
    · rw [if_pos hbyte, if_pos ⟨rfl, hbyte⟩]
      rfl
    · rw [if_neg hbyte, if_neg fun hboth => hbyte hboth.2, findChild_eq h.ordered, hnode, bind_some]
  · have hindex : i.toNat ≠ current.toNat := fun heq => hi (UInt32.toNat_inj.mp heq)
    have hkeep : (if i = current ∧ byte = c then UInt32.ofNat trie.nodes.length
        else trie.findChild i byte) = trie.findChild i byte := if_neg fun hboth => hi hboth.1
    rw [hkeep, if_neg hindex]
    split
    · rename_i hlast
      rw [findChild_outside (Nat.le_of_eq hlast.symm)]
      rfl
    · rw [findChild_eq h.ordered]

theorem addChild (h : trie.WellFormed) (hcurrent : current.toNat < trie.nodes.length)
    (hnone : trie.findChild current c = kInvalidNode) (room : trie.nodes.length < 4294967295) :
    (trie.addChild current c).WellFormed := by
  have hnew : (UInt32.ofNat trie.nodes.length).toNat = trie.nodes.length :=
    UInt32.toNat_ofNat_of_lt' (Nat.lt_trans room (by decide))
  have hother : ∀ {i byte}, trie.findChild i byte ≠ kInvalidNode →
      UInt32.ofNat trie.nodes.length ≠ trie.findChild i byte := by
    intro i byte hvalid heq
    have hlt := (h.child hvalid).2
    rw [← heq, hnew] at hlt
    exact Nat.lt_irrefl _ hlt
  refine ⟨?_, ?_, h.addChild_ordered hcurrent hnone, ?_, ?_⟩
  · rw [addChild_length]
    exact Nat.succ_pos _
  · rw [addChild_length]
    exact room
  · intro node hnode edge hedge
    have hold : ∀ old ∈ trie.nodes, edge ∈ old.children →
        edge.nodeIndex ≠ 0 ∧ edge.nodeIndex.toNat < (trie.addChild current c).nodes.length := by
      intro old hold hedge
      obtain ⟨hroot, hlt⟩ := h.inside old hold edge hedge
      rw [addChild_length]
      exact ⟨hroot, Nat.lt_succ_of_lt hlt⟩
    rcases mem_addChild hcurrent hnode with hmem | rfl | ⟨old, hget, rfl⟩
    · exact hold node hmem hedge
    · cases hedge
    · rcases (mem_insertIdx findIdx_le_length).mp hedge with rfl | hedge
      · rw [addChild_length]
        refine ⟨fun (hzero : UInt32.ofNat trie.nodes.length = 0) => ?_, ?_⟩
        · have hpos := h.pos
          rw [← hnew, hzero] at hpos
          exact absurd hpos (by decide)
        · rw [hnew]
          exact Nat.lt_succ_self _
      · exact hold old (mem_of_getElem? hget) hedge
  · intro i j byte byte' hsame hvalid
    rw [h.addChild_findChild hcurrent hnone, h.addChild_findChild hcurrent hnone] at hsame
    rw [h.addChild_findChild hcurrent hnone] at hvalid
    split at hsame
    · rename_i hi
      split at hsame
      · rename_i hj
        exact ⟨hi.1.trans hj.1.symm, hi.2.trans hj.2.symm⟩
      · rw [if_pos hi] at hvalid
        exact absurd hsame (hother (hsame ▸ hvalid))
    · rename_i hi
      rw [if_neg hi] at hvalid
      split at hsame
      · exact absurd hsame.symm (hother hvalid)
      · exact h.parent i j byte byte' hsame hvalid

end WellFormed

theorem findFrom_outside (h : trie.nodes.length ≤ i.toNat) (key : Text) :
    trie.findFrom i key = kInvalidToken := by
  cases key with
  | nil => exact tokenIdAt_outside h
  | cons c key =>
    exact if_pos (findChild_outside h c)

/-- A longer trie that finds the same tokens, and in which every node has kept its children. -/
structure Extends (trie longer : Trie) : Prop where
  wellFormed : longer.WellFormed
  finds : ∀ i key, longer.findFrom i key = trie.findFrom i key
  keeps : ∀ i byte, trie.findChild i byte ≠ kInvalidNode → longer.findChild i byte = trie.findChild i byte

theorem Extends.trans {first second third : Trie} (h : Extends first second) (h' : Extends second third) :
    Extends first third where
  wellFormed := h'.wellFormed
  finds i key := (h'.finds i key).trans (h.finds i key)
  keeps i byte hvalid := by
    have hsecond := h.keeps i byte hvalid
    rw [h'.keeps i byte (hsecond ▸ hvalid), hsecond]

theorem WellFormed.addChild_extends (h : trie.WellFormed) {c : UInt8}
    (hcurrent : current.toNat < trie.nodes.length) (hnone : trie.findChild current c = kInvalidNode)
    (room : trie.nodes.length < 4294967295) : Extends trie (trie.addChild current c) := by
  have hnew : (UInt32.ofNat trie.nodes.length).toNat = trie.nodes.length :=
    UInt32.toNat_ofNat_of_lt' (Nat.lt_trans room (by decide))
  refine ⟨h.addChild hcurrent hnone room, fun i key => ?_, fun i byte hvalid => ?_⟩
  · induction key generalizing i with
    | nil => exact addChild_tokenIdAt hcurrent c i
    | cons byte key ih =>
      have hchild := h.addChild_findChild hcurrent hnone i byte
      by_cases hplace : i = current ∧ byte = c
      · have hvalid : UInt32.ofNat trie.nodes.length ≠ kInvalidNode := by
          intro heq
          rw [heq] at hnew
          exact absurd hnew (Nat.ne_of_gt room)
        rw [if_pos hplace] at hchild
        obtain ⟨rfl, rfl⟩ := hplace
        rw [findFrom, findFrom, hchild, if_neg hvalid, if_pos hnone, ih,
          findFrom_outside (Nat.le_of_eq hnew.symm)]
      · rw [if_neg hplace] at hchild
        rw [findFrom, findFrom, hchild, ih]
  · rw [h.addChild_findChild hcurrent hnone]
    split
    · rename_i hplace
      obtain ⟨rfl, rfl⟩ := hplace
      exact absurd hnone hvalid
    · rfl

theorem descend_length (trie : Trie) (current : UInt32) (key : Text) :
    trie.nodes.length ≤ (trie.descend current key).1.nodes.length := by
  induction key generalizing trie current with
  | nil => exact Nat.le_refl _
  | cons c key ih =>
    rw [descend]
    split
    · have hrest := ih (trie.addChild current c) (UInt32.ofNat trie.nodes.length)
      rw [addChild_length] at hrest
      omega
    · exact ih _ _

theorem descend_length_le (trie : Trie) (current : UInt32) (key : Text) :
    (trie.descend current key).1.nodes.length ≤ trie.nodes.length + key.length := by
  induction key generalizing trie current with
  | nil => exact Nat.le_refl _
  | cons c key ih =>
    rw [descend, length_cons]
    split
    · have hrest := ih (trie.addChild current c) (UInt32.ofNat trie.nodes.length)
      rw [addChild_length] at hrest
      omega
    · have hrest := ih trie (trie.findChild current c)
      omega

/-- After the descent the key leads to the node that is answered. -/
theorem WellFormed.descend (h : trie.WellFormed) {key : Text}
    (hcurrent : current.toNat < trie.nodes.length)
    (room : (trie.descend current key).1.nodes.length ≤ 4294967295) :
    Extends trie (trie.descend current key).1 ∧
      (trie.descend current key).2.toNat < (trie.descend current key).1.nodes.length ∧
      (trie.descend current key).1.follow current key = (trie.descend current key).2 := by
  induction key generalizing trie current with
  | nil => exact ⟨⟨h, fun _ _ => rfl, fun _ _ _ => rfl⟩, hcurrent, rfl⟩
  | cons c key ih =>
    rw [Trie.descend] at room ⊢
    by_cases hnone : trie.findChild current c = kInvalidNode
    · rw [if_pos hnone] at room ⊢
      have hroom : trie.nodes.length < 4294967295 := by
        have hlength := descend_length (trie.addChild current c) (UInt32.ofNat trie.nodes.length) key
        rw [addChild_length] at hlength
        omega
      have hnew : (UInt32.ofNat trie.nodes.length).toNat = trie.nodes.length :=
        UInt32.toNat_ofNat_of_lt' (Nat.lt_trans hroom (by decide))
      have hadd := h.addChild_extends hcurrent hnone hroom
      have hchild : (trie.addChild current c).findChild current c = UInt32.ofNat trie.nodes.length := by
        rw [h.addChild_findChild hcurrent hnone, if_pos ⟨rfl, rfl⟩]
      obtain ⟨hextends, hrange, hfollow⟩ := ih hadd.wellFormed
        (by rw [hnew, addChild_length]; exact Nat.lt_succ_self _) room
      refine ⟨hadd.trans hextends, hrange, ?_⟩
      have hvalid : (trie.addChild current c).findChild current c ≠ kInvalidNode := by
        intro heq
        rw [hchild] at heq
        rw [heq] at hnew
        exact absurd hnew (Nat.ne_of_gt hroom)
      rw [follow, foldl_cons, hextends.keeps _ _ hvalid, hchild]
      exact hfollow
    · rw [if_neg hnone] at room ⊢
      obtain ⟨hextends, hrange, hfollow⟩ := ih h (h.child hnone).2 room
      refine ⟨hextends, hrange, ?_⟩
      rw [follow, foldl_cons, hextends.keeps _ _ hnone]
      exact hfollow

theorem insert_length (trie : Trie) (key : Text) (id : TokenId) :
    trie.nodes.length ≤ (trie.insert key id).nodes.length ∧
      (trie.insert key id).nodes.length ≤ trie.nodes.length + key.length := by
  unfold insert
  split
  · exact ⟨Nat.le_refl _, Nat.le_add_right _ _⟩
  · dsimp only [setTokenId]
    rw [length_modify]
    exact ⟨descend_length trie 0 key, descend_length_le trie 0 key⟩

theorem setTokenId_getElem? (trie : Trie) (nodeIndex : UInt32) (id : TokenId) (i : Nat) :
    (trie.setTokenId nodeIndex id).nodes[i]? =
      (trie.nodes[i]?).map fun node => if nodeIndex.toNat = i then { node with tokenId := id } else node := by
  rw [setTokenId, List.getElem?_modify]
  split <;> simp

theorem setTokenId_findChild (trie : Trie) (nodeIndex : UInt32) (id : TokenId) :
    (trie.setTokenId nodeIndex id).findChild = trie.findChild := by
  funext i byte
  unfold findChild
  rw [setTokenId_getElem?]
  cases hnode : trie.nodes[i.toNat]? with
  | none => rfl
  | some node =>
    rw [map_some]
    by_cases hi : nodeIndex.toNat = i.toNat
    · rw [if_pos hi]
    · rw [if_neg hi]

theorem setTokenId_tokenIdAt {nodeIndex : UInt32} (hrange : nodeIndex.toNat < trie.nodes.length)
    (id : TokenId) (i : UInt32) :
    (trie.setTokenId nodeIndex id).tokenIdAt i = if i = nodeIndex then id else trie.tokenIdAt i := by
  rw [tokenIdAt, setTokenId_getElem?]
  by_cases hi : i = nodeIndex
  · subst hi
    rw [if_pos rfl, List.getElem?_eq_getElem hrange, map_some, if_pos rfl]
    rfl
  · have hindex : nodeIndex.toNat ≠ i.toNat := fun heq => hi (UInt32.toNat_inj.mp heq).symm
    simp [if_neg hi, if_neg hindex, tokenIdAt]

theorem WellFormed.setTokenId (h : trie.WellFormed) (nodeIndex : UInt32) (id : TokenId) :
    (trie.setTokenId nodeIndex id).WellFormed := by
  have hlength : (trie.setTokenId nodeIndex id).nodes.length = trie.nodes.length := by
    rw [Trie.setTokenId, length_modify]
  have hchildren : ∀ node ∈ (trie.setTokenId nodeIndex id).nodes, ∃ old ∈ trie.nodes,
      node.children = old.children := by
    intro node hnode
    obtain ⟨i, hi⟩ := mem_iff_getElem?.mp hnode
    rw [setTokenId_getElem?] at hi
    obtain ⟨old, hold, rfl⟩ := map_eq_some_iff.mp hi
    refine ⟨old, mem_of_getElem? hold, ?_⟩
    split <;> rfl
  refine ⟨hlength ▸ h.pos, hlength ▸ h.small, fun node hnode => ?_, fun node hnode => ?_, ?_⟩
  · obtain ⟨old, hold, hsame⟩ := hchildren node hnode
    exact hsame ▸ h.ordered old hold
  · obtain ⟨old, hold, hsame⟩ := hchildren node hnode
    rw [hsame, hlength]
    exact h.inside old hold
  · rw [setTokenId_findChild]
    exact h.parent

theorem wellFormed_new : ({} : Trie).WellFormed := by
  have hnone : ∀ i byte, ({} : Trie).findChild i byte = kInvalidNode := by
    intro i byte
    by_contra hvalid
    obtain ⟨node, hnode, edge, hedge, -⟩ := findChild_mem hvalid
    rw [mem_singleton.mp hnode] at hedge
    cases hedge
  refine ⟨Nat.one_pos, by decide, fun node hnode => ?_, fun node hnode => ?_, fun i j byte byte' _ hvalid => ?_⟩
  · rw [mem_singleton.mp hnode]
    exact List.Pairwise.nil
  · rw [mem_singleton.mp hnode]
    exact fun edge hedge => nomatch hedge
  · exact absurd (hnone i byte) hvalid

theorem find_new (key : Text) : ({} : Trie).find key = kInvalidToken := by
  cases key with
  | nil => rfl
  | cons c key =>
    rw [find, findFrom]
    refine if_pos ?_
    by_contra hvalid
    obtain ⟨node, hnode, edge, hedge, -⟩ := findChild_mem hvalid
    rw [mem_singleton.mp hnode] at hedge
    cases hedge

/-- As a table from keys to tokens a trie takes a new entry for a key that is not empty and a token
that is valid, and else stays as it is. -/
theorem WellFormed.insert (h : trie.WellFormed) {key : Text} {id : TokenId}
    (room : (trie.insert key id).nodes.length ≤ 4294967295) :
    (trie.insert key id).WellFormed ∧
      ∀ other, (trie.insert key id).find other =
        if other = key ∧ key ≠ [] ∧ id ≠ kInvalidToken then id else trie.find other := by
  unfold Trie.insert at room ⊢
  split
  · rename_i hskip
    refine ⟨h, fun other => (if_neg ?_).symm⟩
    rintro ⟨-, hne, hvalid⟩
    simp only [Bool.or_eq_true, List.isEmpty_iff, beq_iff_eq] at hskip
    exact hskip.elim hne hvalid
  · rename_i hnot
    simp only [Bool.or_eq_true, List.isEmpty_iff, beq_iff_eq, not_or] at hnot
    rw [if_neg (by simpa using hnot)] at room
    dsimp only at room ⊢
    rw [Trie.setTokenId, length_modify] at room
    obtain ⟨hextends, hrange, hfollow⟩ := h.descend (show (0 : UInt32).toNat < trie.nodes.length from h.pos) room
    have hset := hextends.wellFormed.setTokenId (trie.descend 0 key).2 id
    refine ⟨hset, fun other => ?_⟩
    have hsame : ((trie.descend 0 key).1.setTokenId (trie.descend 0 key).2 id).follow 0 other =
        (trie.descend 0 key).1.follow 0 other := by
      rw [follow, setTokenId_findChild, follow]
    have hold : (trie.descend 0 key).1.tokenIdAt ((trie.descend 0 key).1.follow 0 other) = trie.find other := by
      rw [← hextends.wellFormed.findFrom_eq, hextends.finds, find]
    rw [find, hset.findFrom_eq, hsame, setTokenId_tokenIdAt hrange, hold, ← hfollow]
    refine if_congr ⟨fun heq => ⟨?_, hnot⟩, fun hkey => by rw [hkey.1]⟩ rfl rfl
    refine hextends.wellFormed.follow_inj heq fun hinvalid => ?_
    rw [← hfollow, ← heq, hinvalid] at hrange
    exact Nat.not_lt.mpr hextends.wellFormed.outside hrange

/-- The loop of `longestPrefix` from a node on, `i` bytes into the text. -/
def longestPrefixFrom (trie : Trie) (current : UInt32) (i : Nat) (best : Match) : Text → Match
  | [] => best
  | c :: text =>
    let current := trie.findChild current c
    if current = kInvalidNode then best
    else
      let best :=
        if trie.tokenIdAt current ≠ kInvalidToken then ⟨trie.tokenIdAt current, i + 1⟩ else best
      trie.longestPrefixFrom current (i + 1) best text

def longestPrefix (trie : Trie) (text : Text) : Match :=
  trie.longestPrefixFrom 0 0 ⟨kInvalidToken, 0⟩ text

/-- The longest prefix is the last one that is listed. -/
theorem longestPrefixFrom_eq (trie : Trie) (current : UInt32) (i : Nat) (best : Match)
    (text : Text) : trie.longestPrefixFrom current i best text =
      (trie.findAllPrefixesFrom current i text).getLast?.getD best := by
  induction text generalizing current i best with
  | nil => rfl
  | cons c text ih =>
    simp only [longestPrefixFrom, findAllPrefixesFrom]
    split
    · rfl
    · rw [ih, List.getLast?_append]
      cases (trie.findAllPrefixesFrom (trie.findChild current c) (i + 1) text).getLast? <;>
        split <;> rfl

/-- The token at the prefix with one byte more than `n`. -/
def prefixToken (token : Text → TokenId) (i : Nat) (text : Text) (n : Nat) : Option Match :=
  if token (text.take (n + 1)) ≠ kInvalidToken then some ⟨token (text.take (n + 1)), i + n + 1⟩
  else none

/-- The tokens at the prefixes of a text, from the shortest on. -/
def prefixTokens (token : Text → TokenId) (i : Nat) (text : Text) : List Match :=
  (List.range text.length).filterMap (prefixToken token i text)

theorem prefixTokens_cons (token : Text → TokenId) (i : Nat) (c : UInt8) (text : Text) :
    prefixTokens token i (c :: text) =
      (if token [c] ≠ kInvalidToken then [⟨token [c], i + 1⟩] else []) ++
        prefixTokens (fun key => token (c :: key)) (i + 1) text := by
  have hrest : prefixToken token i (c :: text) ∘ Nat.succ =
      prefixToken (fun key => token (c :: key)) (i + 1) text := by
    funext n
    have hlength : i + (n + 1) + 1 = i + 1 + n + 1 := by omega
    simp only [Function.comp_apply, prefixToken, take_succ_cons, hlength]
  rw [prefixTokens, length_cons, range_succ_eq_map]
  by_cases hvalid : token [c] ≠ kInvalidToken
  · have hfirst : prefixToken token i (c :: text) 0 = some ⟨token [c], i + 1⟩ := if_pos hvalid
    rw [if_pos hvalid, filterMap_cons_some hfirst, filterMap_map, hrest]
    rfl
  · have hfirst : prefixToken token i (c :: text) 0 = none := if_neg hvalid
    rw [if_neg hvalid, filterMap_cons_none hfirst, filterMap_map, hrest]
    rfl

theorem findAllPrefixesFrom_eq (trie : Trie) (current : UInt32) (i : Nat) (text : Text) :
    trie.findAllPrefixesFrom current i text = prefixTokens (trie.findFrom current) i text := by
  induction text generalizing current i with
  | nil => rfl
  | cons c text ih =>
    rw [prefixTokens_cons]
    simp only [findAllPrefixesFrom, findFrom]
    split
    · simp [prefixTokens, prefixToken]
    · rw [ih]

/-- A call of `insert`. -/
abbrev Call := Text × TokenId

def insertAll (calls : List Call) : Trie :=
  calls.foldl (fun trie call => trie.insert call.1 call.2) {}

/-- The calls that enter a key: those with a key and with a token. -/
def entering (calls : List Call) (key : Text) : List Call :=
  calls.filter fun call => call.1 == key && !call.1.isEmpty && call.2 != kInvalidToken

/-- The token that was entered last for a key. -/
def lastToken (calls : List Call) (key : Text) : TokenId :=
  ((entering calls key).getLast?.map Prod.snd).getD kInvalidToken

theorem insertAll_find {calls : List Call} (room : (insertAll calls).nodes.length ≤ 4294967295) :
    (insertAll calls).WellFormed ∧ ∀ key, (insertAll calls).find key = lastToken calls key := by
  induction calls using List.reverseRecOn with
  | nil => exact ⟨wellFormed_new, find_new⟩
  | append_singleton calls call ih =>
    rw [insertAll, foldl_concat] at room ⊢
    obtain ⟨hformed, hfind⟩ := ih (Nat.le_trans (insert_length _ _ _).1 room)
    obtain ⟨hformed', hinsert⟩ := hformed.insert room
    refine ⟨hformed', fun key => (hinsert key).trans ?_⟩
    have happend : entering (calls ++ [call]) key = entering calls key ++ entering [call] key :=
      filter_append ..
    rw [hfind, lastToken, lastToken, happend]
    by_cases hcall : key = call.1 ∧ call.1 ≠ [] ∧ call.2 ≠ kInvalidToken
    · have hone : entering [call] key = [call] := by simp [entering, hcall]
      rw [if_pos hcall, hone, List.getLast?_concat]
      rfl
    · have hnone : entering [call] key = [] := by
        refine filter_eq_nil_iff.mpr fun other hother hmatch => ?_
        obtain rfl := mem_singleton.mp hother
        simp only [Bool.and_eq_true, beq_iff_eq, bne_iff_ne, Bool.not_eq_true',
          isEmpty_eq_false_iff] at hmatch
        exact hcall ⟨hmatch.1.1.symm, hmatch.1.2, hmatch.2⟩
      rw [if_neg hcall, hnone, append_nil]

/-- After a run of insertions a key has the token of the last one for it, and the prefixes of
a text are those with a token, the longest one last. -/
theorem insertAll_table {calls : List Call} (room : (insertAll calls).nodes.length < 4294967295) :
    (∀ key, (insertAll calls).find key = lastToken calls key) ∧
    (∀ text, (insertAll calls).findAllPrefixes text = prefixTokens (lastToken calls) 0 text) ∧
    (∀ text, (insertAll calls).longestPrefix text =
      (prefixTokens (lastToken calls) 0 text).getLast?.getD ⟨kInvalidToken, 0⟩) := by
  obtain ⟨-, hfind⟩ := insertAll_find (Nat.le_of_lt room)
  have hall : ∀ text,
      (insertAll calls).findAllPrefixes text = prefixTokens (lastToken calls) 0 text := by
    intro text
    rw [findAllPrefixes, findAllPrefixesFrom_eq]
    exact congrArg (prefixTokens · 0 text) (funext hfind)
  refine ⟨hfind, hall, fun text => ?_⟩
  rw [longestPrefix, longestPrefixFrom_eq, ← findAllPrefixes, hall]

theorem insertAll_table_twice :
    (insertAll [([97, 98], 7), ([97], 5), ([97, 98], 8)]).find [97, 98] = 8 :=
  (@insertAll_table [([97, 98], 7), ([97], 5), ([97, 98], 8)] (by decide)).1 [97, 98]

/-- A call without a key enters nothing. -/
theorem empty_key_not_entered : (insertAll [([], 5)]).find [] ≠ 5 := by decide

end Trie

end JobTokenizer
