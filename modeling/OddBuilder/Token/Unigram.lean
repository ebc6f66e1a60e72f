import Mathlib.Algebra.Order.Ring.Rat
import OddBuilder.Library.Viterbi
import OddBuilder.Token.BpeEncoding
import OddBuilder.Token.Trie

/-!
# Unigram encoding

One table entry for each position of the chunk: the best score with which it is
reached, and the token and the position it is reached from. The score of a token is
the exact value of what `tokenScore` answers for it.
-/

namespace JobTokenizer

open List

namespace Unigram

/-- The exact value of `-1e30f`. -/
def kUnreachableScore : ℚ := -1000000015047466219876688855040

/-- The exact value of `-1e20f`. -/
def kMinValidScore : ℚ := -100000002004087734272

def unkScore : ℚ := -10

structure DpNode where
  bestScore : ℚ := kUnreachableScore
  bestToken : TokenId := kInvalidToken
  bestPrev : Nat := 0

end Unigram

/-- The algorithm with its vocabulary, the special tokens of the vocabulary, and its trie. -/
structure Unigram where
  vocab : Option Vocab := none
  specialTokens : SpecialTokens := {}
  trie : Trie := {}

namespace Unigram

variable {vocab : Vocab} {j k : Nat} {dp : List DpNode} {text : Text} {ids : List TokenId}
  {id : TokenId}

/-- The body of the loop of `rebuildTrie`. -/
def insertRecord (trie : Trie) (record : TokenRecord) : Trie :=
  if !record.isValid || record.text.isEmpty then trie else trie.insert record.text record.id

def rebuildTrie (vocab : Option Vocab) : Trie :=
  match vocab with
  | none => {}
  | some vocab => vocab.records.foldl insertRecord {}

/-- A new algorithm with its trie built. -/
def new (vocab : Option Vocab) (specialTokens : SpecialTokens) : Unigram :=
  ⟨vocab, specialTokens, rebuildTrie vocab⟩

@[simp] theorem new_vocab (vocab : Option Vocab) (specialTokens : SpecialTokens) :
    (new vocab specialTokens).vocab = vocab := rfl

/-- The same search as before merging. -/
def findByteFallbackToken : Option Vocab → UInt8 → TokenId := Bpe.findInitialByteToken

/-- `dp[i]`. -/
def nodeAt (dp : List DpNode) (i : Nat) : DpNode := dp[i]?.getD {}

/-- A candidate for the target from `i`: the table, and whether the candidate was better. -/
def relax (dp : List DpNode) (i target : Nat) (token : TokenId) (candidateScore : ℚ) :
    List DpNode × Bool :=
  if (nodeAt dp target).bestScore < candidateScore then
    (dp.set target ⟨candidateScore, token, i⟩, true)
  else (dp, false)

/-- The loop over the matches at `i`, with `matchedAny`. -/
def relaxMatches (tokenScore : TokenId → ℚ) (count i : Nat) :
    List Trie.Match → List DpNode → Bool → List DpNode × Bool
  | [], dp, matchedAny => (dp, matchedAny)
  | found :: matches', dp, matchedAny =>
    let target := i + found.length
    if count < target then relaxMatches tokenScore count i matches' dp matchedAny
    else
      let (dp, better) := relax dp i target found.id ((nodeAt dp i).bestScore + tokenScore found.id)
      relaxMatches tokenScore count i matches' dp (matchedAny || better)

/-- The body of the forward search at `i`. -/
def visit (unigram : Unigram) (tokenScore : TokenId → ℚ) (chunk : Text) (dp : List DpNode) (i : Nat) :
    List DpNode :=
  if (nodeAt dp i).bestScore ≤ kMinValidScore then dp
  else
    let (dp, matchedAny) :=
      relaxMatches tokenScore chunk.length i (unigram.trie.findAllPrefixes (chunk.drop i)) dp false
    let byteToken := findByteFallbackToken unigram.vocab (chunk.getD i 0)
    let unkId := unigram.specialTokens.canonical .unk
    if byteToken ≠ kInvalidToken then
      (relax dp i (i + 1) byteToken ((nodeAt dp i).bestScore + tokenScore byteToken)).1
    else if !matchedAny && unkId != kInvalidToken then
      (relax dp i (i + 1) unkId ((nodeAt dp i).bestScore + unkScore - 5)).1
    else dp

def initialTable (count : Nat) : List DpNode :=
  (List.replicate (count + 1) ({} : DpNode)).set 0 { bestScore := 0 }

/-- The table after the forward search. -/
def search (unigram : Unigram) (tokenScore : TokenId → ℚ) (chunk : Text) : List DpNode :=
  (List.range chunk.length).foldl (unigram.visit tokenScore chunk) (initialTable chunk.length)

/-- The walk back from `current`. The path is kept with its last token first in the source, and
reversed at the end. -/
def walk (dp : List DpNode) (current : Nat) (path : List TokenId) : List TokenId :=
  if 0 < current then
    if (nodeAt dp current).bestToken = kInvalidToken then []
    else if _ : current ≤ (nodeAt dp current).bestPrev then []
    else walk dp (nodeAt dp current).bestPrev ((nodeAt dp current).bestToken :: path)
  else path
termination_by current
decreasing_by omega

/-- `encode` with room for so many tokens. -/
def encode (unigram : Unigram) (tokenScore : TokenId → ℚ) (chunk : Text) (room : Nat) : List TokenId :=
  if chunk.isEmpty || room == 0 || unigram.vocab.isNone then []
  else
    let dp := unigram.search tokenScore chunk
    let last := nodeAt dp chunk.length
    if last.bestToken = kInvalidToken ∨ last.bestScore ≤ kMinValidScore then []
    else (walk dp chunk.length []).take room

/-- A text that the trie has with its token, or a byte with its own token or that of its spelling. -/
def Piece (unigram : Unigram) (text : Text) (id : TokenId) : Prop :=
  id ≠ kInvalidToken ∧
    (text ≠ [] ∧ unigram.trie.find text = id ∨
      ∃ byte, text = [byte] ∧ findByteFallbackToken unigram.vocab byte = id)

/-- The tokens of a text that is cut into pieces. -/
inductive Tiles (unigram : Unigram) : Text → List TokenId → Prop
  | nil : Tiles unigram [] []
  | piece {text piece : Text} {ids : List TokenId} {id : TokenId} (h : Tiles unigram text ids)
      (hpiece : unigram.Piece piece id) : Tiles unigram (text ++ piece) (ids ++ [id])

/-- Every byte has a token of its own, or its spelling has one. -/
def Covered (vocab : Vocab) (chunk : Text) : Prop :=
  ∀ byte ∈ chunk, vocab.findId [byte] ≠ kInvalidToken ∨
    vocab.findId (ByteFallback.byteToStringView byte) ≠ kInvalidToken

variable {unigram : Unigram} {chunk : Text} {tokenScore : TokenId → ℚ}

theorem Piece.ne_nil (h : unigram.Piece text id) : text ≠ [] := by
  rcases h.2 with ⟨hne, -⟩ | ⟨byte, rfl, -⟩
  · exact hne
  · exact cons_ne_nil _ _

theorem Tiles.length_le (h : Tiles unigram text ids) : ids.length ≤ text.length := by
  induction h with
  | nil => exact Nat.le_refl _
  | piece _ hpiece ih =>
    have hpos := length_pos_iff.mpr hpiece.ne_nil
    simp only [length_append, length_singleton]
    omega

theorem Tiles.text_nil (h : Tiles unigram text []) : text = [] := by
  generalize hids : [] = ids at h
  cases h with
  | nil => rfl
  | piece => exact absurd hids.symm (append_ne_nil_of_right_ne_nil _ (cons_ne_nil _ _))

theorem Tiles.single (h : Tiles unigram text [id]) : unigram.Piece text id := by
  generalize hids : [id] = ids at h
  cases h with
  | nil => cases hids
  | piece hbefore hpiece =>
    obtain ⟨rfl, hlast⟩ := append_inj' ((nil_append _).trans hids) rfl
    obtain rfl := singleton_inj.mp hlast
    rwa [hbefore.text_nil]

theorem Covered.of_part {part : Text} (covered : Covered vocab chunk) (hpart : part <+: chunk) :
    Covered vocab part :=
  fun byte hbyte => covered byte (hpart.subset hbyte)

theorem findByteFallbackToken_ne_iff (vocab : Vocab) (byte : UInt8) :
    findByteFallbackToken (some vocab) byte ≠ kInvalidToken ↔
      vocab.findId [byte] ≠ kInvalidToken ∨
        vocab.findId (ByteFallback.byteToStringView byte) ≠ kInvalidToken := by
  simp only [findByteFallbackToken, Bpe.findInitialByteToken]
  by_cases h : vocab.findId [byte] = kInvalidToken
  · simp [h]
  · simp [h]

/-- The tokens of the bytes tile every text that is covered. -/
theorem Covered.tiles (hvocab : unigram.vocab = some vocab) (covered : Covered vocab text) :
    Tiles unigram text (text.map (findByteFallbackToken (some vocab))) := by
  induction text using List.reverseRecOn with
  | nil => exact .nil
  | append_singleton text byte ih =>
    rw [map_append]
    refine .piece (ih (covered.of_part (prefix_append _ _))) ⟨?_, Or.inr ⟨byte, rfl, ?_⟩⟩
    · rw [findByteFallbackToken_ne_iff]
      exact covered byte (mem_append_right _ (mem_singleton.mpr rfl))
    · rw [hvocab]

/-- The pieces of a chunk as edges between its positions. -/
def edge (unigram : Unigram) (chunk : Text) (i j : Nat) (id : TokenId) : Prop :=
  i < j ∧ j ≤ chunk.length ∧ unigram.Piece ((chunk.drop i).take (j - i)) id

theorem path_tiles (h : Viterbi.Path (unigram.edge chunk) j ids) :
    Tiles unigram (chunk.take j) ids := by
  induction h with
  | start => exact .nil
  | @step i j ids id h hedge ih =>
    obtain ⟨hlt, -, hpiece⟩ := hedge
    have hsplit : chunk.take j = chunk.take i ++ (chunk.drop i).take (j - i) := by
      rw [← take_add, Nat.add_sub_cancel' (Nat.le_of_lt hlt)]
    rw [hsplit]
    exact .piece ih hpiece

theorem Tiles.path (h : Tiles unigram text ids) (hpart : text <+: chunk) :
    Viterbi.Path (unigram.edge chunk) text.length ids := by
  induction h with
  | nil => exact .start
  | @piece text piece ids id h hpiece ih =>
    have hpos := length_pos_iff.mpr hpiece.ne_nil
    have hlength := hpart.length_le
    rw [length_append] at hlength ⊢
    obtain ⟨rest, rfl⟩ := hpart
    refine .step (ih ⟨piece ++ rest, (append_assoc _ _ _).symm⟩) ⟨by omega, hlength, ?_⟩
    rw [append_assoc, drop_left, Nat.add_sub_cancel_left, take_left]
    exact hpiece

def scoreOf (dp : List DpNode) (j : Nat) : ℚ := (nodeAt dp j).bestScore

def linkOf (dp : List DpNode) (j : Nat) : Option (Nat × TokenId) :=
  if (nodeAt dp j).bestToken = kInvalidToken then none
  else some ((nodeAt dp j).bestPrev, (nodeAt dp j).bestToken)

theorem nodeAt_set (hj : j < dp.length) (node : DpNode) (i : Nat) :
    nodeAt (dp.set j node) i = if i = j then node else nodeAt dp i := by
  by_cases h : i = j
  · subst h
    rw [if_pos rfl, nodeAt, List.getElem?_set_self hj, Option.getD_some]
  · rw [if_neg h, nodeAt, List.getElem?_set_ne (Ne.symm h), nodeAt]

theorem scoreOf_set (hj : j < dp.length) (node : DpNode) :
    scoreOf (dp.set j node) = Function.update (scoreOf dp) j node.bestScore := by
  funext i
  rw [scoreOf, nodeAt_set hj, Function.update_apply]
  split <;> rfl

theorem linkOf_set (hj : j < dp.length) {node : DpNode} (htoken : node.bestToken ≠ kInvalidToken) :
    linkOf (dp.set j node) = Function.update (linkOf dp) j (some (node.bestPrev, node.bestToken)) := by
  funext i
  rw [linkOf, nodeAt_set hj]
  by_cases hi : i = j
  · subst hi
    rw [if_pos rfl, if_neg htoken, Function.update_self]
  · rw [if_neg hi, Function.update_of_ne hi, linkOf]

/-- The table of a chunk, forward to position `k` and to the edges of `k` that are done. -/
structure Table (unigram : Unigram) (tokenScore : TokenId → ℚ) (chunk : Text) (dp : List DpNode)
    (k : Nat) (done : Nat → TokenId → Prop) : Prop where
  length : dp.length = chunk.length + 1
  run : Viterbi.Forward (unigram.edge chunk) tokenScore kMinValidScore (scoreOf dp) (linkOf dp) k done

theorem table_initial (unigram : Unigram) (tokenScore : TokenId → ℚ) (chunk : Text) :
    Table unigram tokenScore chunk (initialTable chunk.length) 0 fun _ _ => False := by
  have hnode : ∀ count i, nodeAt (List.replicate count ({} : DpNode)) i = {} := by
    intro count i
    rw [nodeAt, List.getElem?_replicate]
    split <;> rfl
  have hpos : 0 < (List.replicate (chunk.length + 1) ({} : DpNode)).length := by
    exact Nat.succ_pos _
  have hscore : scoreOf (initialTable chunk.length) = Function.update (fun _ => kUnreachableScore) 0 0 := by
    rw [initialTable, scoreOf_set hpos]
    congr 1
    funext i
    rw [scoreOf, hnode]
  have hlink : linkOf (initialTable chunk.length) = fun _ => none := by
    funext i
    rw [linkOf, initialTable, nodeAt_set hpos, hnode]
    split <;> rfl
  refine ⟨by rw [initialTable, length_set, length_replicate], ?_⟩
  rw [hscore, hlink]
  exact .init (by decide)

/-- Relaxing one edge of `k`. -/
theorem Table.relax {done : Nat → TokenId → Prop} (h : Table unigram tokenScore chunk dp k done)
    (hedge : unigram.edge chunk k j id) (above : kMinValidScore < scoreOf dp k) :
    Table unigram tokenScore chunk (Unigram.relax dp k j id (scoreOf dp k + tokenScore id)).1 k
        (fun j' id' => done j' id' ∨ j' = j ∧ id' = id) ∧
      scoreOf (Unigram.relax dp k j id (scoreOf dp k + tokenScore id)).1 k = scoreOf dp k := by
  obtain ⟨hlt, hle, hpiece⟩ := hedge
  have hj : j < dp.length := by
    rw [h.length]
    exact Nat.lt_succ_of_le hle
  rw [Unigram.relax]
  split
  · rename_i hbetter
    refine ⟨⟨by rw [length_set, h.length], ?_⟩, ?_⟩
    · rw [scoreOf_set hj, linkOf_set hj hpiece.1]
      exact h.run.improve hlt ⟨hlt, hle, hpiece⟩ above hbetter
    · rw [scoreOf_set hj, Function.update_of_ne (Nat.ne_of_lt hlt)]
  · rename_i hnot
    exact ⟨⟨h.length, h.run.keep (not_lt.mp hnot)⟩, rfl⟩

/-- Relaxing the edges of the matches at `k`. -/
theorem Table.relaxMatches (matches' : List Trie.Match) {done : Nat → TokenId → Prop}
    (matchedAny : Bool) (h : Table unigram tokenScore chunk dp k done)
    (hedges : ∀ found ∈ matches', unigram.edge chunk k (k + found.length) found.id)
    (above : kMinValidScore < scoreOf dp k) :
    Table unigram tokenScore chunk
        (Unigram.relaxMatches tokenScore chunk.length k matches' dp matchedAny).1 k
        (fun j id => done j id ∨ ∃ found ∈ matches', j = k + found.length ∧ id = found.id) ∧
      kMinValidScore < scoreOf (Unigram.relaxMatches tokenScore chunk.length k matches' dp matchedAny).1 k := by
  induction matches' generalizing dp done matchedAny with
  | nil =>
    refine ⟨⟨h.length, h.run.weaken ?_⟩, above⟩
    rintro j id (hdone | ⟨found, hfound, -⟩)
    · exact hdone
    · cases hfound
  | cons found matches' ih =>
    obtain ⟨hhere, hrest⟩ := forall_mem_cons.mp hedges
    obtain ⟨htable, hsame⟩ := h.relax hhere above
    rw [Unigram.relaxMatches]
    dsimp only
    rw [if_neg (Nat.not_lt.mpr hhere.2.1)]
    obtain ⟨hall, habove⟩ := ih _ htable hrest (hsame.symm ▸ above)
    refine ⟨⟨hall.length, hall.run.weaken ?_⟩, habove⟩
    rintro j id (hdone | ⟨other, hother, hj⟩)
    · exact Or.inl (Or.inl hdone)
    · rcases mem_cons.mp hother with rfl | hother
      · exact Or.inl (Or.inr hj)
      · exact Or.inr ⟨other, hother, hj⟩

/-- The matches at a position are the edges to pieces of the trie. -/
theorem match_edge (hk : k < chunk.length) {found : Trie.Match}
    (h : found ∈ unigram.trie.findAllPrefixes (chunk.drop k)) :
    unigram.edge chunk k (k + found.length) found.id := by
  obtain ⟨hpos, hle, hfind, hvalid⟩ := (Trie.mem_findAllPrefixes _ _ _).mp h
  rw [length_drop] at hle
  refine ⟨by omega, by omega, hvalid, Or.inl ⟨?_, ?_⟩⟩
  · rw [Nat.add_sub_cancel_left, ← length_pos_iff, length_take, length_drop]
    omega
  · rw [Nat.add_sub_cancel_left]
    exact hfind

theorem drop_eq_getD_cons (hk : k < chunk.length) :
    chunk.drop k = chunk.getD k 0 :: chunk.drop (k + 1) := by
  rw [drop_eq_getElem_cons hk, getElem_eq_getD 0]

/-- An edge is one of the matches, or the token of the byte. -/
theorem edge_cases (hk : k < chunk.length) (h : unigram.edge chunk k j id) :
    (∃ found ∈ unigram.trie.findAllPrefixes (chunk.drop k), j = k + found.length ∧ id = found.id) ∨
      j = k + 1 ∧ id = findByteFallbackToken unigram.vocab (chunk.getD k 0) := by
  obtain ⟨hlt, hle, hvalid, ⟨hne, hfind⟩ | ⟨byte, htext, hbyte⟩⟩ := h
  · left
    refine ⟨⟨id, j - k⟩, (Trie.mem_findAllPrefixes _ _ _).mpr ⟨by dsimp only; omega, ?_, hfind, hvalid⟩,
      by dsimp only; omega, rfl⟩
    rw [length_drop]
    dsimp only
    omega
  · right
    have hlength := congrArg List.length htext
    rw [length_take, length_drop, length_singleton] at hlength
    have hj : j = k + 1 := by omega
    rw [hj, Nat.add_sub_cancel_left, drop_eq_getD_cons hk] at htext
    rw [head_eq_of_cons_eq htext]
    exact ⟨hj, hbyte.symm⟩

/-- The forward search at one position. -/
theorem Table.visit (hvocab : unigram.vocab = some vocab) (covered : Covered vocab chunk)
    (hk : k < chunk.length) (h : Table unigram tokenScore chunk dp k fun _ _ => False) :
    Table unigram tokenScore chunk (unigram.visit tokenScore chunk dp k) (k + 1) fun _ _ => False := by
  rw [Unigram.visit]
  split
  · rename_i hlow
    exact ⟨h.length, h.run.next fun habove => absurd habove (not_lt.mpr hlow)⟩
  · rename_i habove
    have hmem : chunk.getD k 0 ∈ chunk := by
      rw [← getElem_eq_getD (h := hk) 0]
      exact getElem_mem hk
    have hbyte : findByteFallbackToken unigram.vocab (chunk.getD k 0) ≠ kInvalidToken := by
      rw [hvocab, findByteFallbackToken_ne_iff]
      exact covered _ hmem
    have hedge : unigram.edge chunk k (k + 1) (findByteFallbackToken unigram.vocab (chunk.getD k 0)) := by
      refine ⟨Nat.lt_succ_self _, hk, hbyte, Or.inr ⟨chunk.getD k 0, ?_, rfl⟩⟩
      rw [Nat.add_sub_cancel_left, drop_eq_getD_cons hk, take_succ_cons, take_zero]
    obtain ⟨hmatches, hstill⟩ := Table.relaxMatches (unigram.trie.findAllPrefixes (chunk.drop k)) false h
      (fun found hfound => match_edge hk hfound) (not_le.mp habove)
    obtain ⟨hall⟩ := hmatches.relax hedge hstill
    dsimp only
    rw [if_pos hbyte]
    refine ⟨hall.length, hall.run.next fun _ j id hj => ?_⟩
    rcases edge_cases hk hj with hmatch | hbyte
    · exact Or.inl (Or.inr hmatch)
    · exact Or.inr hbyte

variable (tokenScore) in
/-- The forward search over all positions. -/
theorem table_search (hvocab : unigram.vocab = some vocab) (covered : Covered vocab chunk) :
    Table unigram tokenScore chunk (unigram.search tokenScore chunk) chunk.length fun _ _ => False := by
  suffices upTo : ∀ k, k ≤ chunk.length →
      Table unigram tokenScore chunk
        ((List.range k).foldl (unigram.visit tokenScore chunk) (initialTable chunk.length)) k
        fun _ _ => False from
    upTo _ (Nat.le_refl _)
  intro k
  induction k with
  | zero => exact fun _ => table_initial unigram tokenScore chunk
  | succ k ih =>
    intro hk
    rw [range_succ, foldl_concat]
    exact (ih (Nat.le_of_succ_le hk)).visit hvocab covered hk

/-- The walk back spells the labels of the links. -/
theorem walk_trace (back : ∀ j i id, linkOf dp j = some (i, id) → i < j)
    (h : Viterbi.Trace (linkOf dp) j ids) (path : List TokenId) : walk dp j path = ids ++ path := by
  induction h generalizing path with
  | start =>
    rw [walk]
    rfl
  | @step i j ids id h hlink ih =>
    have hlt := back j i id hlink
    unfold linkOf at hlink
    split at hlink
    · cases hlink
    · rename_i htoken
      obtain ⟨rfl, rfl⟩ := Prod.mk.inj (Option.some.inj hlink)
      rw [walk, if_pos (Nat.zero_lt_of_lt hlt), if_neg htoken, dif_neg (Nat.not_le.mpr hlt), ih,
        append_assoc]
      rfl

open Viterbi (total Live)

variable (tokenScore) in
/-- With a last score above the threshold the walk answers its tiling, and else nothing is
answered. -/
theorem encode_search (hvocab : unigram.vocab = some vocab) (covered : Covered vocab chunk)
    (nonempty : chunk ≠ []) {room : Nat} (fits : chunk.length ≤ room) :
    (kMinValidScore < scoreOf (unigram.search tokenScore chunk) chunk.length →
      Tiles unigram chunk (unigram.encode tokenScore chunk room) ∧
        Live tokenScore kMinValidScore (unigram.encode tokenScore chunk room) ∧
        total tokenScore (unigram.encode tokenScore chunk room) =
          scoreOf (unigram.search tokenScore chunk) chunk.length) ∧
    (scoreOf (unigram.search tokenScore chunk) chunk.length ≤ kMinValidScore →
      unigram.encode tokenScore chunk room = []) := by
  have hlength := length_pos_iff.mpr nonempty
  have hopen : (chunk.isEmpty || room == 0 || unigram.vocab.isNone) = false := by
    rw [Bool.or_eq_false_iff, Bool.or_eq_false_iff, isEmpty_eq_false_iff, beq_eq_false_iff_ne, hvocab]
    exact ⟨⟨nonempty, by omega⟩, rfl⟩
  have htable := table_search tokenScore hvocab covered
  rw [encode, if_neg (ne_true_of_eq_false hopen)]
  dsimp only
  constructor
  · intro habove
    obtain ⟨ids, htrace, hpath, hlive, htotal⟩ := htable.run.traced (by decide) _ habove
    have htiles := path_tiles hpath
    rw [take_length] at htiles
    -- the last position has a link, since its path is not empty
    have hlast : ¬ ((nodeAt (unigram.search tokenScore chunk) chunk.length).bestToken = kInvalidToken ∨
        (nodeAt (unigram.search tokenScore chunk) chunk.length).bestScore ≤ kMinValidScore) := by
      rintro (hinvalid | hlow)
      · rcases htable.run.unlinked chunk.length (if_pos hinvalid) with hzero | hlow
        · exact absurd hzero (Nat.ne_of_gt hlength)
        · exact absurd habove (not_lt.mpr hlow)
      · exact absurd habove (not_lt.mpr hlow)
    have hwalk : walk (unigram.search tokenScore chunk) chunk.length [] = ids := by
      rw [walk_trace (fun j i id hlink => (htable.run.linked j i id hlink).1) htrace, append_nil]
    rw [if_neg hlast, hwalk, take_of_length_le (Nat.le_trans htiles.length_le fits)]
    exact ⟨htiles, hlive, htotal⟩
  · intro hlow
    exact if_pos (Or.inr hlow)

theorem Tiles.live_le (hvocab : unigram.vocab = some vocab) (covered : Covered vocab chunk)
    (h : Tiles unigram chunk ids) (hlive : Live tokenScore kMinValidScore ids) :
    total tokenScore ids ≤ scoreOf (unigram.search tokenScore chunk) chunk.length :=
  (table_search tokenScore hvocab covered).run.live_le (fun _ _ _ hedge => hedge.1) (Nat.le_refl _)
    (h.path prefix_rfl) hlive

variable (tokenScore) in
/-- If a tiling of every part of the chunk from its first byte on is above the threshold, then every
position is reached, and no tiling of the chunk is better than its last score. -/
theorem scoreOf_reached (hvocab : unigram.vocab = some vocab) (covered : Covered vocab chunk)
    (parts : ∀ part, part <+: chunk → ∃ ids, Tiles unigram part ids ∧ kMinValidScore < total tokenScore ids) :
    kMinValidScore < scoreOf (unigram.search tokenScore chunk) chunk.length ∧
      ∀ ids, Tiles unigram chunk ids →
        total tokenScore ids ≤ scoreOf (unigram.search tokenScore chunk) chunk.length := by
  have hforward : ∀ i j id, unigram.edge chunk i j id → i < j := fun _ _ _ hedge => hedge.1
  have hreached := (table_search tokenScore hvocab covered).run.reached hforward
    (by
      intro i hi
      have hpart := take_prefix i chunk
      obtain ⟨ids, htiles, habove⟩ := parts (chunk.take i) hpart
      have hpath := htiles.path hpart
      rw [length_take, Nat.min_eq_left hi] at hpath
      exact ⟨ids, hpath, habove⟩)
  refine ⟨hreached _ (Nat.le_refl _), fun ids htiles => ?_⟩
  exact (table_search tokenScore hvocab covered).run.path_le hforward (Nat.le_refl _)
    (fun i hi => hreached i (Nat.le_of_lt hi)) (htiles.path prefix_rfl)

/-- The encoder finds a best tiling among those that stay above the threshold from their first token
on, and a best one of all if every part of the chunk from its first byte on has a tiling above the
threshold. Without a tiling that stays above it there are no tokens. -/
theorem encode_best {vocab : Vocab} (hvocab : unigram.vocab = some vocab) (tokenScore : TokenId → ℚ)
    (covered : Covered vocab chunk) (nonempty : chunk ≠ []) {room : Nat} (fits : chunk.length ≤ room) :
    ((∃ ids, Tiles unigram chunk ids ∧ Live tokenScore kMinValidScore ids) →
      Tiles unigram chunk (unigram.encode tokenScore chunk room) ∧
        Live tokenScore kMinValidScore (unigram.encode tokenScore chunk room) ∧
        ∀ ids, Tiles unigram chunk ids → Live tokenScore kMinValidScore ids →
          total tokenScore ids ≤ total tokenScore (unigram.encode tokenScore chunk room)) ∧
    ((¬ ∃ ids, Tiles unigram chunk ids ∧ Live tokenScore kMinValidScore ids) →
      unigram.encode tokenScore chunk room = []) ∧
    ((∀ part, part <+: chunk → ∃ ids, Tiles unigram part ids ∧ kMinValidScore < total tokenScore ids) →
      Tiles unigram chunk (unigram.encode tokenScore chunk room) ∧
        ∀ ids, Tiles unigram chunk ids →
          total tokenScore ids ≤ total tokenScore (unigram.encode tokenScore chunk room)) := by
  obtain ⟨hfound, hnone⟩ := encode_search tokenScore hvocab covered nonempty fits
  refine ⟨?_, ?_, ?_⟩
  · rintro ⟨ids, htiles, hlive⟩
    obtain ⟨hout, hstays, htotal⟩ :=
      hfound (lt_of_lt_of_le hlive.total (htiles.live_le hvocab covered hlive))
    refine ⟨hout, hstays, fun other hother hotherLive => ?_⟩
    rw [htotal]
    exact hother.live_le hvocab covered hotherLive
  · intro hno
    refine hnone (not_lt.mp fun habove => hno ?_)
    obtain ⟨hout, hstays, -⟩ := hfound habove
    exact ⟨_, hout, hstays⟩
  · intro parts
    obtain ⟨habove, hbest⟩ := scoreOf_reached tokenScore hvocab covered parts
    obtain ⟨hout, -, htotal⟩ := hfound habove
    refine ⟨hout, fun ids htiles => ?_⟩
    rw [htotal]
    exact hbest ids htiles

/-- The letters `a` and `b`. -/
def letterVocab : Vocab := ({} : Vocab).addTokens [[97], [98]]

theorem letterVocab_covered : Covered letterVocab [97, 98] := by
  have hall : [97, 98].all (fun byte => letterVocab.findId [byte] != kInvalidToken) = true := by decide
  exact fun byte hbyte => Or.inl (bne_iff_ne.mp (all_eq_true.mp hall byte hbyte))

theorem encode_best_letters :
    Tiles (new (some letterVocab) {}) [97, 98] ((new (some letterVocab) {}).encode (fun _ => 0) [97, 98] 2) ∧
      ∀ ids, Tiles (new (some letterVocab) {}) [97, 98] ids →
        total (fun _ : TokenId => (0 : ℚ)) ids ≤
          total (fun _ => 0) ((new (some letterVocab) {}).encode (fun _ => 0) [97, 98] 2) := by
  refine (encode_best rfl (fun _ => 0) letterVocab_covered (cons_ne_nil _ _) (Nat.le_refl 2)).2.2 ?_
  intro part hpart
  refine ⟨_, (letterVocab_covered.of_part hpart).tiles rfl, ?_⟩
  rw [total, map_const', sum_replicate, nsmul_zero]
  decide

/-- Two tokens above the threshold whose sum is not: the chunk has a tiling and no tokens. -/
theorem encode_below_threshold :
    kMinValidScore < -60000000000000000000 ∧ Covered letterVocab [97, 98] ∧
      Tiles (new (some letterVocab) {}) [97, 98] [0, 1] ∧
      (new (some letterVocab) {}).encode (fun _ => -60000000000000000000) [97, 98] 16 = [] := by
  refine ⟨by decide +kernel, letterVocab_covered, ?_, by decide +kernel⟩
  exact letterVocab_covered.tiles rfl

end Unigram

end JobTokenizer
