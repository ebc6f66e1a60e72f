import Mathlib.Algebra.Order.BigOperators.Group.List
import OddBuilder.Token.UnigramLossless

/-!
# Encoding with byte fallback and back

Merging cuts the chunk into segments, each with one token. A segment of one byte is
always decoded to it. A longer one is decoded to itself if all its bytes have tokens of
their own and it does not look like the spelling of a byte, and no other error of
another segment can make up for one that is not.
-/

namespace JobTokenizer

open List Unigram ByteFallback ITokenAlgo

/-- Lists that differ at a place which both have. -/
def Diverges {α : Type} (s t : List α) : Prop :=
  ∃ w x y a b, x ≠ y ∧ s = w ++ x :: a ∧ t = w ++ y :: b

theorem Diverges.ne {α : Type} {s t : List α} (h : Diverges s t) : s ≠ t := by
  obtain ⟨w, x, y, a, b, hne, rfl, rfl⟩ := h
  exact fun heq => hne (List.cons.inj (append_cancel_left heq)).1

/-- Where every segment that changes does so at a place of its own, no change is made up for. -/
theorem flatMap_eq_flatten {α : Type} {render : List α → List α} {segments : List (List α)}
    (h : ∀ s ∈ segments, render s = s ∨ Diverges s (render s))
    (heq : segments.flatMap render = segments.flatten) : ∀ s ∈ segments, render s = s := by
  induction segments with
  | nil => exact fun s hs => nomatch hs
  | cons s segments ih =>
    obtain ⟨hfirst, hrest⟩ := forall_mem_cons.mp h
    rw [flatMap_cons, flatten_cons] at heq
    rcases hfirst with hsame | ⟨w, x, y, a, b, hne, hs, hrender⟩
    · rw [hsame] at heq
      exact forall_mem_cons.mpr ⟨hsame, ih hrest (append_cancel_left heq)⟩
    · rw [hrender, hs, append_assoc, append_assoc] at heq
      exact absurd (List.cons.inj (append_cancel_left heq)).1 (Ne.symm hne)

theorem eq_of_sum_eq {α : Type} {f g : α → Nat} {xs : List α} (hle : ∀ x ∈ xs, f x ≤ g x)
    (hsum : (xs.map f).sum = (xs.map g).sum) : ∀ x ∈ xs, f x = g x := by
  intro x hx
  by_contra hne
  have hlt := sum_lt_sum f g hle ⟨x, hx, lt_of_le_of_ne (hle x hx) hne⟩
  exact absurd hsum (Nat.ne_of_lt hlt)

theorem sum_weights (c : UInt8) (f g : Text → Text) (texts : List Text) :
    (texts.map fun s => 5 * (f s).count c + (g s).length).sum =
      5 * (texts.flatMap f).count c + (texts.flatMap g).length := by
  induction texts with
  | nil => rfl
  | cons s texts ih =>
    simp only [map_cons, sum_cons, flatMap_cons, count_append, length_append]
    omega

namespace Bpe

open PairMerging

/-- Every merge makes a token whose text is that of the pair. -/
def Concatenating (bpe : Bpe) (vocab : Vocab) : Prop :=
  ∀ rule ∈ bpe.rules,
    vocab.tokenText rule.newId = vocab.tokenText rule.left ++ vocab.tokenText rule.right

/-- The parts of the chunk that are merged, each with its token. -/
def segments (bpe : Bpe) (vocab : Vocab) (chunk : Text) : List (Text × TokenId) :=
  merge (labelled bpe.tableRule (· ++ ·))
    (chunk.map fun byte => ([byte], findInitialByteToken (some vocab) byte))

/-- Whether every byte has a token of its own. -/
def Literal (vocab : Vocab) (text : Text) : Prop := ∀ byte ∈ text, vocab.findId [byte] ≠ kInvalidToken

/-- A segment that is one byte, or all of whose bytes have their own tokens and which is not spelled
like a byte. -/
def Plain (vocab : Vocab) (segment : Text) : Prop :=
  2 ≤ segment.length → Literal vocab segment ∧ ByteFallback.isByteToken segment = false

/-- No merge makes a token that is spelled like a byte, or takes one. -/
def PlainRules (bpe : Bpe) (vocab : Vocab) : Prop :=
  ∀ rule ∈ bpe.rules, ByteFallback.isByteToken (vocab.tokenText rule.left) = false ∧
    ByteFallback.isByteToken (vocab.tokenText rule.right) = false ∧
    ByteFallback.isByteToken (vocab.tokenText rule.newId) = false

variable {bpe : Bpe} {vocab : Vocab} {chunk : Text}

theorem segments_tokens (bpe : Bpe) (vocab : Vocab) (chunk : Text) :
    (bpe.segments vocab chunk).map Prod.snd =
      merge bpe.tableRule (chunk.map (findInitialByteToken (some vocab))) := by
  rw [segments, merge_labelled, map_map]
  rfl

/-- Up to `2 ^ 32` rules the pair and the new token are from one rule. -/
theorem tableRule_rule (built : bpe.Built) (few : bpe.rules.length ≤ 4294967296) {a b c : TokenId}
    {rank : Nat} (h : bpe.tableRule a b = some (rank, c)) : (⟨a, b, c⟩ : MergeRule) ∈ bpe.rules := by
  rw [built.eq_rebuild, tableRule_eq few] at h
  exact mem_of_getElem? (ruleFor_getElem h)

/-- The text of the token of a byte. -/
def initialText (vocab : Vocab) (byte : UInt8) : Text :=
  vocab.tokenText (findInitialByteToken (some vocab) byte)

/-- What holds of the segments at first and after every merge. -/
structure Segmented (vocab : Vocab) (chunk : Text) (segments : List (Text × TokenId)) : Prop where
  flatten : (segments.map Prod.fst).flatten = chunk
  texts : ∀ segment ∈ segments, segment.1 ≠ [] ∧
    vocab.tokenText segment.2 = segment.1.flatMap (initialText vocab)

/-- One merge of neighbours whose texts its token joins. -/
theorem Segmented.merge {u v : List (Text × TokenId)} {x y : Text × TokenId} {c : TokenId}
    (h : Segmented vocab chunk (u ++ x :: y :: v))
    (htext : vocab.tokenText c = vocab.tokenText x.2 ++ vocab.tokenText y.2) :
    Segmented vocab chunk (u ++ (x.1 ++ y.1, c) :: v) := by
  refine ⟨?_, fun segment hsegment => ?_⟩
  · have hflatten := h.flatten
    simp only [map_append, map_cons, flatten_append, flatten_cons] at hflatten ⊢
    rw [append_assoc]
    exact hflatten
  · rcases mem_append.mp hsegment with hmem | hmem
    · exact h.texts segment (mem_append_left _ hmem)
    · rcases mem_cons.mp hmem with rfl | hmem
      · obtain ⟨hne, hx⟩ := h.texts x (mem_append_right _ (mem_cons_self ..))
        obtain ⟨-, hy⟩ := h.texts y
          (mem_append_right _ (mem_cons_of_mem _ (mem_cons_self ..)))
        refine ⟨append_ne_nil_of_left_ne_nil hne _, ?_⟩
        rw [htext, hx, hy, flatMap_append]
      · exact h.texts segment
          (mem_append_right _ (mem_cons_of_mem _ (mem_cons_of_mem _ hmem)))

theorem segmented_initial (vocab : Vocab) (chunk : Text) :
    Segmented vocab chunk (chunk.map fun byte => ([byte], findInitialByteToken (some vocab) byte)) := by
  constructor
  · induction chunk with
    | nil => rfl
    | cons byte chunk ih => exact congrArg (byte :: ·) ih
  · intro segment hsegment
    obtain ⟨byte, -, rfl⟩ := mem_map.mp hsegment
    exact ⟨cons_ne_nil _ _, (append_nil _).symm⟩

/-- What a labelled merge says of the rule it is from. -/
theorem labelled_rule (built : bpe.Built) (few : bpe.rules.length ≤ 4294967296) {x y joined : Text × TokenId}
    {rank : Nat} (h : labelled bpe.tableRule (· ++ ·) x y = some (rank, joined)) :
    ∃ c, joined = (x.1 ++ y.1, c) ∧ (⟨x.2, y.2, c⟩ : MergeRule) ∈ bpe.rules := by
  obtain ⟨⟨rank', c⟩, hfound, heq⟩ := Option.map_eq_some_iff.mp h
  obtain ⟨rfl, rfl⟩ := Prod.mk.inj heq
  exact ⟨c, rfl, tableRule_rule built few hfound⟩

theorem segmented (built : bpe.Built) (few : bpe.rules.length ≤ 4294967296)
    (concatenating : bpe.Concatenating vocab) (chunk : Text) :
    Segmented vocab chunk (bpe.segments vocab chunk) := by
  refine merge_keeps (P := Segmented vocab chunk) ?_ (segmented_initial vocab chunk)
  intro u x y v rank joined hrule h
  obtain ⟨c, rfl, hmem⟩ := labelled_rule built few hrule
  exact h.merge (concatenating ⟨x.2, y.2, c⟩ hmem)

/-- What a segment is decoded to. -/
def rendered (vocab : Vocab) (segment : Text) : Text := pieceText id (segment.flatMap (initialText vocab))

section

variable (consistent : vocab.Consistent) (covered : ∀ byte, findInitialByteToken (some vocab) byte ≠ kInvalidToken)
variable {segment : Text}

include consistent covered

theorem initialText_eq (byte : UInt8) :
    initialText vocab byte =
      if vocab.findId [byte] ≠ kInvalidToken then [byte] else byteToStringView byte :=
  findInitialByteToken_text consistent (covered byte)

theorem rendered_single (byte : UInt8) : rendered vocab [byte] = [byte] := by
  rw [rendered, flatMap_singleton]
  exact findInitialByteToken_piece consistent (covered byte)

theorem flatMap_literal {text : Text} (literal : Literal vocab text) :
    text.flatMap (initialText vocab) = text := by
  induction text with
  | nil => rfl
  | cons byte text ih =>
    obtain ⟨hbyte, hrest⟩ := forall_mem_cons.mp literal
    rw [flatMap_cons, ih hrest, initialText_eq consistent covered, if_pos hbyte]
    rfl

theorem rendered_plain (hne : segment ≠ []) (plain : Plain vocab segment) :
    rendered vocab segment = segment := by
  by_cases hlong : 2 ≤ segment.length
  · obtain ⟨hliteral, hspelled⟩ := plain hlong
    rw [rendered, flatMap_literal consistent covered hliteral, pieceText_plain hspelled]
  · have hpos := length_pos_iff.mpr hne
    obtain ⟨byte, rfl⟩ := length_eq_one_iff.mp (by omega : segment.length = 1)
    exact rendered_single consistent covered byte

/-- The bytes of a text that have only their spellings. -/
theorem length_initial (text : Text) :
    (text.flatMap (initialText vocab)).length =
      text.length + 5 * text.countP fun byte => vocab.findId [byte] == kInvalidToken := by
  induction text with
  | nil => rfl
  | cons byte text ih =>
    rw [flatMap_cons, length_append, initialText_eq consistent covered, length_cons, countP_cons]
    by_cases hown : vocab.findId [byte] = kInvalidToken
    · simp only [hown, ne_eq, not_true, if_false, beq_self_eq_true, if_true, byteToStringView,
        length_cons, length_nil]
      omega
    · simp only [hown, ne_eq, not_false_eq_true, if_true, beq_iff_eq, if_false, length_singleton]
      omega

/-- A longer segment with a byte that has only its spelling is decoded to the texts of its bytes. -/
theorem rendered_fallback (hlong : 2 ≤ segment.length) (h : ¬ Literal vocab segment) :
    rendered vocab segment = segment.flatMap (initialText vocab) := by
  obtain ⟨byte, hbyte, hnone⟩ : ∃ byte ∈ segment, vocab.findId [byte] = kInvalidToken := by
    simpa [Literal] using h
  have hcount : 0 < segment.countP fun byte => vocab.findId [byte] == kInvalidToken :=
    countP_pos_iff.mpr ⟨byte, hbyte, beq_iff_eq.mpr hnone⟩
  have hlength := length_initial consistent covered segment
  refine pieceText_plain ?_
  by_contra hspelled
  have hsix := isByteToken_length (Bool.not_eq_false _ ▸ hspelled)
  omega

/-- A longer segment of bytes with their own tokens that is spelled like a byte is decoded to it. -/
theorem rendered_spelled (literal : Literal vocab segment)
    (hspelled : isByteToken segment = true) :
    ∃ byte, rendered vocab segment = [byte] := by
  rw [rendered, flatMap_literal consistent covered literal]
  exact pieceText_spelled hspelled

/-- A segment that is not plain is a spelling of bytes with their own tokens, or has a byte with only
its spelling. -/
theorem not_plain (h : ¬ Plain vocab segment) :
    (Literal vocab segment ∧ isByteToken segment = true ∧
      ∃ byte, rendered vocab segment = [byte]) ∨
    (¬ Literal vocab segment ∧ rendered vocab segment = segment.flatMap (initialText vocab)) := by
  simp only [Plain, Classical.not_imp, not_and_or, Bool.not_eq_false] at h
  obtain ⟨hlong, hcase⟩ := h
  by_cases hliteral : Literal vocab segment
  · have hspelled := hcase.resolve_left (not_not_intro hliteral)
    exact Or.inl ⟨hliteral, hspelled, rendered_spelled consistent covered hliteral hspelled⟩
  · exact Or.inr ⟨hliteral, rendered_fallback consistent covered hlong hliteral⟩

theorem countP_pos (h : ¬ Literal vocab segment) :
    0 < segment.countP fun byte => vocab.findId [byte] == kInvalidToken := by
  obtain ⟨byte, hbyte, hnone⟩ : ∃ byte ∈ segment, vocab.findId [byte] = kInvalidToken := by
    simpa [Literal] using h
  exact countP_pos_iff.mpr ⟨byte, hbyte, beq_iff_eq.mpr hnone⟩

/-- Every byte with only its spelling adds one bracket, if the bracket itself has its own token. -/
theorem count_initial (own : vocab.findId [60] ≠ kInvalidToken) (text : Text) :
    (text.flatMap (initialText vocab)).count 60 =
      text.count 60 + text.countP fun byte => vocab.findId [byte] == kInvalidToken := by
  induction text with
  | nil => rfl
  | cons byte text ih =>
    rw [flatMap_cons, count_append, initialText_eq consistent covered, count_cons, countP_cons]
    by_cases hown : vocab.findId [byte] = kInvalidToken
    · have hne : byte ≠ 60 := by
        rintro rfl
        exact own hown
      simp only [hown, ne_eq, not_true, if_false, byteToStringView_count, beq_iff_eq, hne, if_true]
      omega
    · simp only [hown, ne_eq, not_false_eq_true, if_true, count_singleton, beq_iff_eq, if_false]
      omega

/-- A text with a byte that has only its spelling differs from the texts of its bytes at that byte. -/
theorem diverges_fallback (own : vocab.findId [60] ≠ kInvalidToken) {text : Text}
    (h : ¬ Literal vocab text) : Diverges text (text.flatMap (initialText vocab)) := by
  induction text with
  | nil => exact absurd (fun byte hbyte => nomatch hbyte) h
  | cons byte text ih =>
    rw [flatMap_cons, initialText_eq consistent covered]
    by_cases hown : vocab.findId [byte] = kInvalidToken
    · rw [if_neg (not_not_intro hown)]
      refine ⟨[], byte, 60, text, _, ?_, rfl, rfl⟩
      rintro rfl
      exact own hown
    · obtain ⟨w, x, y, a, b, hne, htext, hrendered⟩ :=
        ih fun hliteral => h (forall_mem_cons.mpr ⟨hown, hliteral⟩)
      rw [if_pos hown]
      refine ⟨byte :: w, x, y, a, b, hne, congrArg (byte :: ·) htext, ?_⟩
      rw [hrendered]
      rfl

/-- A segment is five brackets short for every byte that its text is too short, at the least. -/
theorem weight_le (own : vocab.findId [60] ≠ kInvalidToken) (hne : segment ≠ []) :
    5 * segment.count 60 + (rendered vocab segment).length ≤
      5 * (rendered vocab segment).count 60 + segment.length := by
  by_cases plain : Plain vocab segment
  · rw [rendered_plain consistent covered hne plain]
  · rcases not_plain consistent covered plain with ⟨-, hspelled, byte, hbyte⟩ | ⟨-, htext⟩
    · have hcount := isByteToken_count hspelled
      have hlength := isByteToken_length hspelled
      rw [hbyte, length_singleton]
      omega
    · have hcount := count_initial consistent covered own segment
      have hlength := length_initial consistent covered segment
      rw [htext]
      omega

/-- Where the weights agree a segment is plain, or differs from its text at a place of both. -/
theorem diverges_of_weight (own : vocab.findId [60] ≠ kInvalidToken)
    (heq : 5 * segment.count 60 + (rendered vocab segment).length =
      5 * (rendered vocab segment).count 60 + segment.length) (h : ¬ Plain vocab segment) :
    Diverges segment (rendered vocab segment) := by
  rcases not_plain consistent covered h with ⟨-, hspelled, byte, hbyte⟩ | ⟨hliteral, htext⟩
  · rw [hbyte, isByteToken_count hspelled] at heq
    obtain ⟨high, low, rfl, -⟩ := isByteToken_iff.mp hspelled
    refine ⟨[], 60, byte, _, [], ?_, rfl, hbyte⟩
    rintro rfl
    simp at heq
  · rw [htext]
    exact diverges_fallback consistent covered own hliteral

/-- The segments are decoded to what they are cut from exactly if all of them are plain. -/
theorem flatMap_rendered_iff {texts : List Text} (nonempty : ∀ s ∈ texts, s ≠ []) :
    texts.flatMap (rendered vocab) = texts.flatten ↔ ∀ s ∈ texts, Plain vocab s := by
  constructor
  · intro heq
    by_cases own : vocab.findId [60] ≠ kInvalidToken
    · -- the weights of all segments together agree, and so do those of each
      have hsum : (texts.map fun s => 5 * s.count 60 + (rendered vocab s).length).sum =
          (texts.map fun s => 5 * (rendered vocab s).count 60 + s.length).sum := by
        have hbefore := sum_weights 60 id (rendered vocab) texts
        have hafter := sum_weights 60 (rendered vocab) id texts
        rw [flatMap_id, heq] at hbefore hafter
        exact hbefore.trans hafter.symm
      have hweights := eq_of_sum_eq (fun s hs => weight_le consistent covered own (nonempty s hs)) hsum
      have hsame := flatMap_eq_flatten (fun s hs => by
        by_cases plain : Plain vocab s
        · exact Or.inl (rendered_plain consistent covered (nonempty s hs) plain)
        · exact Or.inr (diverges_of_weight consistent covered own (hweights s hs) plain)) heq
      intro s hs
      by_contra plain
      have hdiverges := diverges_of_weight consistent covered own (hweights s hs) plain
      rw [hsame s hs] at hdiverges
      exact hdiverges.ne rfl
    · -- no text is spelled with brackets of their own, so no segment is decoded to a shorter text
      have hlonger : ∀ s ∈ texts, s.length ≤ (rendered vocab s).length ∧
          (¬ Plain vocab s → s.length < (rendered vocab s).length) := by
        intro s hs
        by_cases plain : Plain vocab s
        · rw [rendered_plain consistent covered (nonempty s hs) plain]
          exact ⟨Nat.le_refl _, fun h => absurd plain h⟩
        · rcases not_plain consistent covered plain with ⟨hliteral, hspelled, -⟩ | ⟨hliteral, htext⟩
          · obtain ⟨high, low, rfl, -⟩ := isByteToken_iff.mp hspelled
            exact absurd (hliteral 60 (mem_cons_self ..)) own
          · have hlength := length_initial consistent covered s
            have hpos := countP_pos consistent covered hliteral
            rw [htext]
            exact ⟨by omega, fun _ => by omega⟩
      have hsum : (texts.map List.length).sum = (texts.map fun s => (rendered vocab s).length).sum := by
        rw [← length_flatten, ← heq, length_flatMap]
      have hlengths := eq_of_sum_eq (fun s hs => (hlonger s hs).1) hsum
      intro s hs
      by_contra plain
      exact absurd (hlengths s hs) (Nat.ne_of_lt ((hlonger s hs).2 plain))
  · intro plain
    induction texts with
    | nil => rfl
    | cons s texts ih =>
      obtain ⟨hs, hrest⟩ := forall_mem_cons.mp plain
      obtain ⟨hne, hnonempty⟩ := forall_mem_cons.mp nonempty
      rw [flatMap_cons, flatten_cons, ih hnonempty hrest, rendered_plain consistent covered hne hs]

/-- A plain segment whose token is not spelled like a byte consists of bytes with their own tokens. -/
theorem Plain.literal (plain : Plain vocab segment)
    (hspelled : isByteToken (segment.flatMap (initialText vocab)) = false) :
    Literal vocab segment := by
  by_cases hlong : 2 ≤ segment.length
  · exact (plain hlong).1
  · intro byte hbyte hnone
    have hpos := length_pos_of_mem hbyte
    obtain ⟨other, rfl⟩ := length_eq_one_iff.mp (by omega : segment.length = 1)
    obtain rfl := mem_singleton.mp hbyte
    rw [flatMap_singleton, initialText_eq consistent covered, if_neg (not_not_intro hnone),
      isByteToken_byteToStringView] at hspelled
    cases hspelled

/-- Rules that leave the spellings of bytes alone cut every chunk into plain segments. -/
theorem PlainRules.segments (plainRules : bpe.PlainRules vocab) (built : bpe.Built)
    (few : bpe.rules.length ≤ 4294967296) (concatenating : bpe.Concatenating vocab) (chunk : Text) :
    ∀ segment ∈ bpe.segments vocab chunk, Plain vocab segment.1 := by
  suffices both : Segmented vocab chunk (bpe.segments vocab chunk) ∧
      ∀ segment ∈ bpe.segments vocab chunk, Plain vocab segment.1 from both.2
  refine merge_keeps (P := fun w => Segmented vocab chunk w ∧ ∀ segment ∈ w, Plain vocab segment.1) ?_
    ⟨segmented_initial vocab chunk, fun segment hsegment => ?_⟩
  · rintro u x y v rank joined hrule ⟨h, plain⟩
    obtain ⟨c, rfl, hmem⟩ := labelled_rule built few hrule
    obtain ⟨hleft, hright, hnew⟩ := plainRules ⟨x.2, y.2, c⟩ hmem
    have htext := concatenating ⟨x.2, y.2, c⟩ hmem
    have hxmem : x ∈ u ++ x :: y :: v := mem_append_right _ (mem_cons_self ..)
    have hymem : y ∈ u ++ x :: y :: v :=
      mem_append_right _ (mem_cons_of_mem _ (mem_cons_self ..))
    have hx := (h.texts x hxmem).2
    have hy := (h.texts y hymem).2
    have hxliteral := (plain x hxmem).literal consistent covered (hx ▸ hleft)
    have hyliteral := (plain y hymem).literal consistent covered (hy ▸ hright)
    refine ⟨h.merge htext, fun segment hsegment => ?_⟩
    rcases mem_append.mp hsegment with hold | hmem
    · exact plain segment (mem_append_left _ hold)
    · rcases mem_cons.mp hmem with rfl | hold
      · have hliteral : Literal vocab (x.1 ++ y.1) :=
          fun byte hbyte => (mem_append.mp hbyte).elim (hxliteral byte) (hyliteral byte)
        rw [htext, hx, hy, flatMap_literal consistent covered hxliteral,
          flatMap_literal consistent covered hyliteral] at hnew
        exact fun _ => ⟨hliteral, hnew⟩
      · exact plain segment
          (mem_append_right _ (mem_cons_of_mem _ (mem_cons_of_mem _ hold)))
  · obtain ⟨byte, -, rfl⟩ := mem_map.mp hsegment
    exact fun hlong => absurd hlong (by simp)

/-- The merged tokens are decoded to the chunk exactly if its segments are plain. -/
theorem merge_lossless_iff (built : bpe.Built) (few : bpe.rules.length ≤ 4294967296)
    (concatenating : bpe.Concatenating vocab) (chunk : Text) :
    ITokenAlgo.bpe.Lossless vocab (merge bpe.tableRule (chunk.map (findInitialByteToken (some vocab)))) chunk ↔
      ∀ segment ∈ bpe.segments vocab chunk, Plain vocab segment.1 := by
  have h := segmented built few concatenating chunk
  have htext : ITokenAlgo.bpe.text (some vocab) ((bpe.segments vocab chunk).map Prod.snd) =
      ((bpe.segments vocab chunk).map Prod.fst).flatMap (rendered vocab) := by
    rw [text_some, flatMap_map, flatMap_map]
    refine flatMap_congr fun segment hsegment => ?_
    rw [rendered, ← (h.texts segment hsegment).2]
    rfl
  have hnonempty : ∀ s ∈ (bpe.segments vocab chunk).map Prod.fst, s ≠ [] := by
    intro s hs
    obtain ⟨segment, hsegment, rfl⟩ := mem_map.mp hs
    exact (h.texts segment hsegment).1
  have hiff := flatMap_rendered_iff consistent covered hnonempty
  rw [h.flatten] at hiff
  rw [ITokenAlgo.lossless_iff, ← segments_tokens, htext, hiff]
  exact forall_mem_map

end

end Bpe

/-- With byte fallback a chunk comes back from the unigram tokens under every scoring, as soon as it
has a tiling above the threshold, exactly if no record in it is spelled like a byte; and from merged
tokens exactly if its segments are plain, which they are if the rules leave spellings alone. -/
theorem fallback_lossless_iff {vocab : Vocab} (built : vocab.Built)
    (small : vocab.records.length ≤ Vocab.kMaxRecords)
    (covered : ∀ byte, vocab.findId [byte] ≠ kInvalidToken ∨
      vocab.findId (byteToStringView byte) ≠ kInvalidToken)
    (specialTokens : SpecialTokens) (nodes : (rebuildTrie (some vocab)).nodes.length ≤ 4294967295)
    {bpe : Bpe} (rules : bpe.Built) (few : bpe.rules.length ≤ 4294967296)
    (concatenating : bpe.Concatenating vocab) (chunk : Text) {room : Nat} (fits : chunk.length ≤ room) :
    ((∀ tokenScore : TokenId → ℚ, unigram.Lossless vocab
          ((new (some vocab) specialTokens).encode tokenScore chunk room) chunk ↔
        ∃ ids, Unigram.Tiles (new (some vocab) specialTokens) chunk ids ∧
          Viterbi.Live tokenScore kMinValidScore ids) ↔ Unigram.NoSpelling vocab chunk) ∧
    ∃ tokens, bpe.encode (some vocab) chunk room = some tokens ∧
      (ITokenAlgo.bpe.Lossless vocab tokens chunk ↔
        ∀ segment ∈ bpe.segments vocab chunk, Bpe.Plain vocab segment.1) ∧
      (bpe.PlainRules vocab → ITokenAlgo.bpe.Lossless vocab tokens chunk) := by
  have consistent := built.consistent small
  have hfound : ∀ byte, Bpe.findInitialByteToken (some vocab) byte ≠ kInvalidToken :=
    fun byte => (findByteFallbackToken_ne_iff vocab byte).mpr (covered byte)
  have hiff := Bpe.merge_lossless_iff consistent hfound rules few concatenating chunk
  refine ⟨?_, _, Bpe.encode_eq rules vocab fits, hiff, fun plainRules => hiff.mpr ?_⟩
  · exact encode_lossless_iff specialTokens consistent (built.placed small)
      (rebuildTrie_indexes vocab nodes) (fun byte _ => covered byte) fits
  · exact plainRules.segments consistent hfound rules few concatenating chunk

/-- The spellings of all bytes. -/
def spellings : List Text := (List.range 256).map fun n => ByteFallback.byteToStringView (UInt8.ofNat n)

theorem length_spellings : spellings.length = 256 := by simp [spellings]

/-- Irreducible, as nothing should compute it. -/
@[irreducible] def fallbackVocab : Vocab := ({} : Vocab).addTokens spellings

theorem mem_spellings (byte : UInt8) : byteToStringView byte ∈ spellings := by
  rw [spellings, mem_map]
  exact ⟨byte.toNat, mem_range.mpr byte.toNat_lt, by rw [UInt8.ofNat_toNat]⟩

theorem spellings_ne_nil {text : Text} (h : text ∈ spellings) : text ≠ [] := by
  obtain ⟨n, -, rfl⟩ := mem_map.mp h
  exact cons_ne_nil _ _

theorem fallbackVocab_built : fallbackVocab.Built := by
  unfold fallbackVocab
  exact Vocab.Built.empty.addTokens spellings

theorem fallbackVocab_small : fallbackVocab.records.length ≤ Vocab.kMaxRecords := by
  have hlength := (Vocab.addTokens_length {} spellings).2
  rw [length_spellings] at hlength
  unfold fallbackVocab
  exact Nat.le_trans hlength (by decide)

theorem fallbackVocab_found {text : Text} (h : text ∈ spellings) : fallbackVocab.findId text ≠ kInvalidToken := by
  obtain ⟨i, -, hlt, hfind⟩ := Vocab.addTokens_findId {} h (spellings_ne_nil h)
  rw [length_spellings] at hlt
  unfold fallbackVocab
  rw [hfind]
  exact Vocab.ofNat_valid (Nat.lt_of_lt_of_le hlt (by decide))

theorem fallbackVocab_covered (byte : UInt8) : fallbackVocab.findId [byte] ≠ kInvalidToken ∨
    fallbackVocab.findId (byteToStringView byte) ≠ kInvalidToken :=
  Or.inr (fallbackVocab_found (mem_spellings byte))

theorem fallbackVocab_texts : fallbackVocab.records.map TokenRecord.text = spellings := by
  unfold fallbackVocab
  exact Vocab.addTokens_texts {} fun text htext => spellings_ne_nil htext

set_option maxRecDepth 4096 in
theorem fallbackVocab_nodes : (rebuildTrie (some fallbackVocab)).nodes.length ≤ 4294967295 := by
  have hle := rebuildTrie_length_le fallbackVocab
  rw [fallbackVocab_texts] at hle
  exact Nat.le_trans hle (by decide)

theorem fallback_lossless_sample :
    ((∀ tokenScore : TokenId → ℚ, unigram.Lossless fallbackVocab
          ((new (some fallbackVocab) {}).encode tokenScore [104, 105] 2) [104, 105] ↔
        ∃ ids, Unigram.Tiles (new (some fallbackVocab) {}) [104, 105] ids ∧
          Viterbi.Live tokenScore kMinValidScore ids) ↔
      Unigram.NoSpelling fallbackVocab [104, 105]) ∧
    ∃ tokens, ({} : Bpe).encode (some fallbackVocab) [104, 105] 2 = some tokens ∧
      (bpe.Lossless fallbackVocab tokens [104, 105] ↔
        ∀ segment ∈ ({} : Bpe).segments fallbackVocab [104, 105], Bpe.Plain fallbackVocab segment.1) ∧
      (({} : Bpe).PlainRules fallbackVocab → bpe.Lossless fallbackVocab tokens [104, 105]) :=
  fallback_lossless_iff fallbackVocab_built fallbackVocab_small fallbackVocab_covered {} fallbackVocab_nodes
    .new (by decide) (fun _ h => nomatch h) [104, 105] (Nat.le_refl 2)

open Viterbi (total) in
/-- If every token has the score `-1`, a short text with a token is encoded to one with that text. -/
theorem encode_whole {vocab : Vocab} (consistent : vocab.Consistent) (placed : vocab.Placed)
    (indexes : Unigram.Indexes (rebuildTrie (some vocab)) vocab.records) {chunk : Text}
    (covered : Unigram.Covered vocab chunk) (long : 2 ≤ chunk.length) (short : chunk.length ≤ 80)
    (hfound : vocab.findId chunk ≠ kInvalidToken) {room : Nat} (fits : chunk.length ≤ room) :
    ∃ token, (new (some vocab) {}).encode (fun _ => -1) chunk room = [token] ∧
      vocab.tokenText token = chunk := by
  have hne : chunk ≠ [] := length_pos_iff.mp (by omega)
  have htotal : ∀ ids : List TokenId, total (fun _ => (-1 : ℚ)) ids = -(ids.length : ℚ) := by
    intro ids
    simp [total]
  obtain ⟨habove, hbest⟩ := scoreOf_reached (fun _ => -1) (new_vocab (some vocab) {})
    covered fun part hpart => by
      refine ⟨_, (covered.of_part hpart).tiles rfl, ?_⟩
      have hlength : (part.length : ℚ) ≤ 80 := Nat.cast_le.mpr (Nat.le_trans hpart.length_le short)
      have hlow : kMinValidScore < -80 := by decide
      rw [htotal, length_map]
      linarith
  obtain ⟨htiles, -, hscore⟩ :=
    (encode_search _ (new_vocab (some vocab) {}) covered hne fits).1 habove
  set out := (new (some vocab) {}).encode (fun _ => -1) chunk room
  -- the chunk is one piece of the trie, so the best tiling has no more than one token
  obtain ⟨record, hrecord, hvalid, rfl⟩ := consistent.exists_record hfound
  have hfind := indexes.complete record hrecord hvalid hne
  have hone := hbest [(rebuildTrie (some vocab)).find record.text]
    (.piece .nil ⟨hfind, Or.inl ⟨hne, rfl⟩⟩)
  rw [← hscore, htotal, htotal, neg_le_neg_iff, Nat.cast_le, length_singleton] at hone
  have hpos : 0 < out.length := by
    refine length_pos_iff.mpr fun hnil => ?_
    rw [hnil] at htiles
    exact hne htiles.text_nil
  obtain ⟨token, htoken⟩ := length_eq_one_iff.mp (Nat.le_antisymm hone hpos)
  rw [htoken] at htiles
  refine ⟨token, htoken, ?_⟩
  obtain ⟨hvalidToken, ⟨-, hpiece⟩ | ⟨byte, hbyte, -⟩⟩ := htiles.single
  · obtain ⟨other, hother, hotherValid, hotherText, hotherId⟩ := indexes.sound _ hfind
    have hsame : other.id = token := hotherId.trans hpiece
    rw [← hotherText, ← hsame]
    exact placed.tokenText_id hother hotherValid
  · rw [hbyte] at long
    exact absurd long (by simp)

/-- Every byte has its spelling, but the text `<0x41>` has one token and comes back as the letter `A`. -/
theorem fallback_lost :
    (∀ byte, fallbackVocab.findId [byte] ≠ kInvalidToken ∨
      fallbackVocab.findId (byteToStringView byte) ≠ kInvalidToken) ∧
    ∃ token,
      (new (some fallbackVocab) {}).encode (fun _ => -1) [60, 48, 120, 52, 49, 62] 28 = [token] ∧
        decode (some fallbackVocab) [token] 80 = [65] := by
  obtain ⟨token, htoken, htext⟩ := encode_whole (fallbackVocab_built.consistent fallbackVocab_small)
    (fallbackVocab_built.placed fallbackVocab_small)
    (rebuildTrie_indexes fallbackVocab fallbackVocab_nodes) (fun byte _ => fallbackVocab_covered byte)
    (by decide) (by decide) (fallbackVocab_found (mem_spellings 65))
    (by decide : (byteToStringView 65).length ≤ 28)
  refine ⟨fallbackVocab_covered, token, htoken, ?_⟩
  have hdecode := decode_take .unigram (some fallbackVocab) [token] 80
  rw [text_some, flatMap_singleton, htext] at hdecode
  exact hdecode

end JobTokenizer
