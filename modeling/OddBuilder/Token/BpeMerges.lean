import OddBuilder.Token.Bpe

/-!
# The merging loop merges greedily

The symbols that are still linked are the live ones. The links are right for them,
the dead lead nowhere, and the queue holds an entry for every adjacent live pair
that has a rule. An entry that passes the checks on its way out is such a pair,
and as it came out first it is the leftmost of the lowest rank.
-/

namespace JobTokenizer

namespace Bpe

open PairMerging

variable {symbols : List Symbol} {u v live : Live} {queue : List QueueElement} {bpe : Bpe}
  {top : QueueElement} {x : Nat × TokenId} {q : Nat} {a b c : TokenId} {initialIds : List TokenId}

/-- The live symbols from left to right: where each stands and its id. -/
abbrev Live : Type := List (Nat × TokenId)

def word (live : Live) : List TokenId := live.map Prod.snd

structure Links (symbols : List Symbol) (live : Live) : Prop where
  entry : ∀ u x v, live = u ++ x :: v →
    symbols[x.1]? = some ⟨u.getLast?.map Prod.fst, v.head?.map Prod.fst, x.2⟩
  sorted : (live.map Prod.fst).Pairwise (· < ·)
  dead : ∀ p s, symbols[p]? = some s → (∀ x ∈ live, x.1 ≠ p) → s.next = none
  first : live.head?.map Prod.fst = some 0

structure Covers (bpe : Bpe) (queue : List QueueElement) (live : Live) : Prop where
  sorted : queue.Pairwise QueueElement.notGt
  ranked : ∀ e ∈ queue, bpe.pairToRank.lookup (makePairKey e.leftId e.rightId) = some e.rank
  covered : ∀ u x y v rank, live = u ++ x :: y :: v →
    bpe.pairToRank.lookup (makePairKey x.2 y.2) = some rank → ⟨x.1, rank, x.2, y.2⟩ ∈ queue

theorem order_of_split {y : Nat × TokenId}
    (h : ((u ++ x :: y :: v).map Prod.fst).Pairwise (· < ·)) :
    (∀ z ∈ u, z.1 < x.1) ∧ x.1 < y.1 ∧ ∀ z ∈ v, y.1 < z.1 := by
  simp only [List.map_append, List.map_cons, List.pairwise_append, List.pairwise_cons,
    List.mem_cons, List.mem_map] at h
  obtain ⟨-, ⟨hx, hy, -⟩, hu⟩ := h
  refine ⟨?_, hx _ (Or.inl rfl), ?_⟩
  · intro z hz
    exact hu _ ⟨z, hz, rfl⟩ _ (Or.inl rfl)
  · intro z hz
    exact hy _ ⟨z, hz, rfl⟩

/-- A symbol that leads on is live, and leads to the next live symbol. -/
theorem Links.next (links : Links symbols live) {p next : Nat} {s t : Symbol}
    (hs : symbols[p]? = some s) (hnext : s.next = some next) (ht : symbols[next]? = some t) :
    ∃ u v, live = u ++ (p, s.id) :: (next, t.id) :: v := by
  have hlive : ∃ x ∈ live, x.1 = p := by
    by_contra hno
    have hdead := links.dead p s hs (fun x hx heq => hno ⟨x, hx, heq⟩)
    rw [hdead] at hnext
    cases hnext
  obtain ⟨x, hx, rfl⟩ := hlive
  obtain ⟨u, v, rfl⟩ := List.append_of_mem hx
  have hx' := links.entry u x v rfl
  rw [hs] at hx'
  obtain rfl := Option.some.inj hx'
  cases v with
  | nil => cases hnext
  | cons y v =>
    obtain rfl := Option.some.inj hnext
    have hy := links.entry (u ++ [x]) y v (by simp)
    rw [ht] at hy
    obtain rfl := Option.some.inj hy
    exact ⟨u, v, rfl⟩

/-- Where the symbols of a merge end up. -/
theorem mergeSymbols_getElem? (symbols : List Symbol) (p q : Nat) (nn : Option Nat) (c : TokenId)
    (k : Nat) :
    (mergeSymbols symbols p q nn c)[k]? = symbols[k]?.map fun s =>
      if q = k then ⟨none, none, kInvalidToken⟩
      else ⟨if nn = some k then some p else s.prev, if p = k then nn else s.next,
        if p = k then c else s.id⟩ := by
  cases nn with
  | none =>
    simp only [mergeSymbols, List.getElem?_modify, Option.map_eq_map, Option.map_map]
    congr 1
    funext s
    by_cases hq : q = k <;> by_cases hp : p = k <;> simp [hp]
  | some n =>
    simp only [mergeSymbols, List.getElem?_modify, Option.map_eq_map, Option.map_map]
    congr 1
    funext s
    by_cases hq : q = k <;> by_cases hp : p = k <;> by_cases hn : n = k <;> simp [hp, hn]

theorem Links.merge {p : Nat} (links : Links symbols (u ++ (p, a) :: (q, b) :: v)) (c : TokenId) :
    Links (mergeSymbols symbols p q (v.head?.map Prod.fst) c) (u ++ (p, c) :: v) := by
  obtain ⟨hu, hpq, hv⟩ := order_of_split links.sorted
  dsimp only at hu hpq hv
  -- the symbol behind the pair stands to the right of it
  have hnn : ∀ k, v.head?.map Prod.fst = some k → q < k := by
    intro k hk
    obtain ⟨z, hz, rfl⟩ := Option.map_eq_some_iff.mp hk
    exact hv z (List.mem_of_mem_head? hz)
  constructor
  · intro u₁ x v₁ hsplit
    rw [mergeSymbols_getElem?]
    rcases List.append_eq_append_iff.mp hsplit with ⟨bs, rfl, hbs⟩ | ⟨bs, rfl, hbs⟩
    · cases bs with
      | nil =>
        obtain ⟨rfl, rfl⟩ := List.cons.inj hbs
        have hold := links.entry u (p, a) ((q, b) :: v) rfl
        have hfar : v.head?.map Prod.fst ≠ some p := fun hk => absurd (hnn p hk) (by omega)
        rw [hold, Option.map_some, if_neg (by omega), if_neg hfar]
        simp
      | cons y bs =>
        obtain rfl : (p, c) = y := (List.cons.inj hbs).1
        obtain rfl : v = bs ++ x :: v₁ := (List.cons.inj hbs).2
        have hold := links.entry (u ++ (p, a) :: (q, b) :: bs) x v₁ (by simp)
        have hx := hv x (by simp)
        rw [hold, Option.map_some, if_neg (by omega), if_neg (show p ≠ x.1 by omega),
          if_neg (show p ≠ x.1 by omega)]
        cases bs with
        | nil => simp
        | cons z bs =>
          have hzx : z.1 < x.1 := by
            have hall := links.sorted
            simp only [List.map_append, List.map_cons, List.pairwise_append, List.pairwise_cons,
              List.cons_append] at hall
            exact hall.2.1.2.2.1 _ (by simp)
          have hfar : ((z :: bs ++ x :: v₁).head?).map Prod.fst ≠ some x.1 := by
            intro hk
            exact absurd (Option.some.inj hk) (by omega)
          rw [if_neg hfar]
          simp
    · cases bs with
      | nil =>
        obtain ⟨rfl, rfl⟩ := List.cons.inj hbs
        have hold := links.entry u₁ (p, a) ((q, b) :: v₁) (by simp)
        have hfar : v₁.head?.map Prod.fst ≠ some p := fun hk => absurd (hnn p hk) (by omega)
        rw [hold, Option.map_some, if_neg (by omega), if_neg hfar]
        simp
      | cons y bs =>
        obtain ⟨rfl, rfl⟩ := List.cons.inj hbs
        have hold := links.entry u₁ x (bs ++ (p, a) :: (q, b) :: v) (by simp)
        have hx := hu x (by simp)
        have hfar : v.head?.map Prod.fst ≠ some x.1 := fun hk => absurd (hnn _ hk) (by omega)
        rw [hold, Option.map_some, if_neg (by omega), if_neg hfar, if_neg (by omega), if_neg (by omega)]
        cases bs <;> rfl
  · refine links.sorted.sublist ?_
    simp only [List.map_append]
    exact List.Sublist.append_left (List.Sublist.cons_cons _ (List.sublist_cons_self _ _)) _
  · intro k s hs hdead
    rw [mergeSymbols_getElem?] at hs
    obtain ⟨t, ht, rfl⟩ := Option.map_eq_some_iff.mp hs
    by_cases hq : q = k
    · rw [if_pos hq]
    · have hp : p ≠ k := hdead (p, c) (by simp)
      rw [if_neg hq, if_neg hp]
      refine links.dead k t ht ?_
      intro x hx
      rcases List.mem_append.mp hx with hx | hx
      · exact hdead x (List.mem_append_left _ hx)
      · rcases List.mem_cons.mp hx with rfl | hx
        · exact hp
        · rcases List.mem_cons.mp hx with rfl | hx
          · exact hq
          · exact hdead x (List.mem_append_right _ (List.mem_cons_of_mem _ hx))
  · have hfirst := links.first
    cases u <;> exact hfirst

theorem notGt_iff (a b : QueueElement) :
    a.notGt b ↔ a.rank < b.rank ∨ (a.rank = b.rank ∧ a.pos ≤ b.pos) := by
  simp only [QueueElement.notGt, QueueElement.gt]
  by_cases h : a.rank = b.rank
  · simp [h]
  · have hbne : (a.rank != b.rank) = true := by simpa using h
    have hne : a.rank.toNat ≠ b.rank.toNat := fun heq => h (UInt32.toNat_inj.mp heq)
    simp only [hbne, if_true, decide_eq_false_iff_not, UInt32.lt_iff_toNat_lt, h, false_and, or_false]
    omega

instance : Std.Total QueueElement.notGt where
  total a b := by
    rw [notGt_iff, notGt_iff]
    simp only [UInt32.lt_iff_toNat_lt, ← UInt32.toNat_inj]
    omega

instance : IsTrans QueueElement QueueElement.notGt where
  trans a b c := by
    rw [notGt_iff, notGt_iff, notGt_iff]
    simp only [UInt32.lt_iff_toNat_lt, ← UInt32.toNat_inj]
    omega

theorem pushPair_cases (bpe : Bpe) (symbols : List Symbol) (queue : List QueueElement)
    (position : Option Nat) :
    bpe.pushPair symbols queue position = queue ∨
      ∃ e : QueueElement, bpe.pairToRank.lookup (makePairKey e.leftId e.rightId) = some e.rank ∧
        bpe.pushPair symbols queue position = push queue e := by
  simp only [pushPair]
  repeat' split
  all_goals first
    | exact Or.inl rfl
    | exact Or.inr ⟨⟨_, _, _, _⟩, by assumption, rfl⟩

theorem mem_pushPair (bpe : Bpe) (symbols : List Symbol) (position : Option Nat) {e : QueueElement}
    (h : e ∈ queue) : e ∈ bpe.pushPair symbols queue position := by
  rcases pushPair_cases bpe symbols queue position with heq | ⟨x, -, heq⟩
  · rwa [heq]
  · rw [heq, push, List.mem_orderedInsert]
    exact Or.inr h

theorem pushPair_length_le (bpe : Bpe) (symbols : List Symbol) (queue : List QueueElement)
    (position : Option Nat) : (bpe.pushPair symbols queue position).length ≤ queue.length + 1 := by
  rcases pushPair_cases bpe symbols queue position with heq | ⟨x, -, heq⟩
  · rw [heq]
    exact Nat.le_succ _
  · rw [heq, push, List.orderedInsert_length]

theorem pushPair_sorted (bpe : Bpe) (symbols : List Symbol) (position : Option Nat)
    (h : queue.Pairwise QueueElement.notGt) :
    (bpe.pushPair symbols queue position).Pairwise QueueElement.notGt := by
  rcases pushPair_cases bpe symbols queue position with heq | ⟨x, -, heq⟩
  · rwa [heq]
  · rw [heq]
    exact h.orderedInsert x queue

theorem pushPair_ranked (bpe : Bpe) (symbols : List Symbol) (position : Option Nat)
    (h : ∀ e ∈ queue, bpe.pairToRank.lookup (makePairKey e.leftId e.rightId) = some e.rank) :
    ∀ e ∈ bpe.pushPair symbols queue position,
      bpe.pairToRank.lookup (makePairKey e.leftId e.rightId) = some e.rank := by
  rcases pushPair_cases bpe symbols queue position with heq | ⟨x, hx, heq⟩
  · rwa [heq]
  · intro e he
    rw [heq, push, List.mem_orderedInsert] at he
    rcases he with rfl | he
    · exact hx
    · exact h e he

/-- `pushPair` at a live symbol adds the entry of the pair it begins. -/
theorem pushPair_adds (bpe : Bpe) (links : Links symbols live) (queue : List QueueElement)
    {y : Nat × TokenId} {rank : UInt32} (hlive : live = u ++ x :: y :: v)
    (hrank : bpe.pairToRank.lookup (makePairKey x.2 y.2) = some rank) :
    ⟨x.1, rank, x.2, y.2⟩ ∈ bpe.pushPair symbols queue (some x.1) := by
  have hx := links.entry u x (y :: v) hlive
  have hy := links.entry (u ++ [x]) y v (by simp [hlive])
  simp [pushPair, hx, hy, hrank, push]

theorem mergeTop_live (bpe : Bpe) (queue : List QueueElement) {rule : MergeRule}
    (links : Links symbols (u ++ (top.pos, top.leftId) :: (q, top.rightId) :: v))
    (hrule : bpe.rules[top.rank.toNat]? = some rule) :
    bpe.mergeTop symbols queue top =
      let symbols' := mergeSymbols symbols top.pos q (v.head?.map Prod.fst) rule.newId
      (symbols', bpe.pushPair symbols' (bpe.pushPair symbols' queue (u.getLast?.map Prod.fst))
        (some top.pos)) := by
  have hx := links.entry u (top.pos, top.leftId) ((q, top.rightId) :: v) rfl
  have hy := links.entry (u ++ [(top.pos, top.leftId)]) (q, top.rightId) v (by simp)
  have hnew := (links.merge rule.newId).entry u (top.pos, rule.newId) v rfl
  simp [mergeTop, hx, hy, hrule, hnew]

theorem mergeTop_stale (bpe : Bpe) (links : Links symbols live)
    (stale : ∀ u q v, live ≠ u ++ (top.pos, top.leftId) :: (q, top.rightId) :: v) :
    bpe.mergeTop symbols queue top = (symbols, queue) := by
  unfold mergeTop
  split
  · rfl
  rename_i s hs
  split
  · rfl
  rename_i hleft
  split
  · rfl
  rename_i next hnext
  split
  · rfl
  rename_i t ht
  split
  · rfl
  rename_i hright
  obtain ⟨u, v, hlive⟩ := links.next hs hnext ht
  rw [not_not.mp hleft, not_not.mp hright] at hlive
  exact absurd hlive (stale u next v)

/-- Adjacent symbols of a word of live symbols come from adjacent live symbols. -/
theorem word_split {s t : List TokenId} (h : word live = s ++ a :: b :: t) :
    ∃ u x y v, live = u ++ x :: y :: v ∧ x.2 = a ∧ y.2 = b := by
  obtain ⟨u, w, rfl, -, hw⟩ := List.map_eq_append_iff.mp h
  obtain ⟨x, w, rfl, hx, hw⟩ := List.map_eq_cons_iff.mp hw
  obtain ⟨y, v, rfl, hy, -⟩ := List.map_eq_cons_iff.mp hw
  exact ⟨u, x, y, v, rfl, hx, hy⟩

theorem tableRule_lookup {r : Nat} (h : bpe.tableRule a b = some (r, c)) :
    ∃ rank, bpe.pairToRank.lookup (makePairKey a b) = some rank ∧ rank.toNat = r := by
  obtain ⟨rank, hrank, h⟩ := Option.bind_eq_some_iff.mp h
  obtain ⟨rule, -, h⟩ := Option.bind_eq_some_iff.mp h
  exact ⟨rank, hrank, (Prod.mk.inj (Option.some.inj h)).1⟩

/-- A live pair that came out first is the best pair of the word. -/
theorem best_of_top
    (covers : Covers bpe (top :: queue) (u ++ (top.pos, top.leftId) :: (q, top.rightId) :: v))
    (order : ((u ++ (top.pos, top.leftId) :: (q, top.rightId) :: v).map Prod.fst).Pairwise (· < ·))
    (hrule : bpe.tableRule top.leftId top.rightId = some (top.rank.toNat, c)) :
    best bpe.tableRule (word u ++ top.leftId :: top.rightId :: word v) =
      some ((word u).length, top.rank.toNat, c) := by
  have hfirst : ∀ e ∈ queue, top.notGt e := (List.pairwise_cons.mp covers.sorted).1
  obtain ⟨hu⟩ := order_of_split order
  refine best_of_split hrule ?_ ?_
  · intro a b s t r' c' hsplit hab
    have hword : word (u ++ [(top.pos, top.leftId)]) = s ++ a :: b :: t := by
      rw [← hsplit]
      exact List.map_append
    obtain ⟨u₁, x, y, v₁, hlive, rfl, rfl⟩ := word_split hword
    obtain ⟨rank, hrank, rfl⟩ := tableRule_lookup hab
    -- the pair begins to the left of the one that came out
    have hbefore : x.1 < top.pos := by
      have hx : x ∈ u := by
        rcases List.eq_nil_or_concat v₁ with rfl | ⟨v₂, z, rfl⟩
        · have hcut : u ++ [(top.pos, top.leftId)] = (u₁ ++ [x]) ++ [y] := by simpa using hlive
          rw [(List.append_inj' hcut rfl).1]
          simp
        · have hcut : u ++ [(top.pos, top.leftId)] = (u₁ ++ x :: y :: v₂) ++ [z] := by
            simpa using hlive
          rw [(List.append_inj' hcut rfl).1]
          simp
      exact hu x hx
    have hmem := covers.covered u₁ x y (v₁ ++ (q, top.rightId) :: v) rank (by
      have hglue := congrArg (· ++ ((q, top.rightId) :: v)) hlive
      simpa using hglue) hrank
    rcases List.mem_cons.mp hmem with heq | hmem
    · have hpos := congrArg QueueElement.pos heq
      dsimp only at hpos
      omega
    · rcases (notGt_iff _ _).mp (hfirst _ hmem) with hlt | ⟨hle⟩
      · exact UInt32.lt_iff_toNat_lt.mp hlt
      · dsimp only at hle
        omega
  · intro a b s t r' c' hsplit hab
    have hword : word ((q, top.rightId) :: v) = s ++ a :: b :: t := hsplit
    obtain ⟨u₁, x, y, v₁, hlive, rfl, rfl⟩ := word_split hword
    obtain ⟨rank, hrank, rfl⟩ := tableRule_lookup hab
    have hmem := covers.covered (u ++ (top.pos, top.leftId) :: u₁) x y v₁ rank (by
      rw [hlive]
      simp) hrank
    rcases List.mem_cons.mp hmem with heq | hmem
    · have hranks := congrArg QueueElement.rank heq
      dsimp only at hranks
      rw [hranks]
    · rcases (notGt_iff _ _).mp (hfirst _ hmem) with hlt | ⟨heq, -⟩
      · exact Nat.le_of_lt (UInt32.lt_iff_toNat_lt.mp hlt)
      · exact Nat.le_of_eq (congrArg UInt32.toNat heq)

/-- After a merge the two pushes cover the two pairs that are new. -/
theorem Covers.merge
    (covers : Covers bpe (top :: queue) (u ++ (top.pos, top.leftId) :: (q, top.rightId) :: v))
    (order : ((u ++ (top.pos, top.leftId) :: (q, top.rightId) :: v).map Prod.fst).Pairwise (· < ·))
    (links : Links symbols (u ++ (top.pos, c) :: v)) :
    Covers bpe (bpe.pushPair symbols (bpe.pushPair symbols queue (u.getLast?.map Prod.fst))
      (some top.pos)) (u ++ (top.pos, c) :: v) := by
  obtain ⟨hu, hpq, hv⟩ := order_of_split order
  dsimp only at hu hpq hv
  -- a pair that begins elsewhere and was there before is still in the queue
  have hkept : ∀ u₁ x y v₁ rank, x.1 ≠ top.pos →
      u ++ (top.pos, top.leftId) :: (q, top.rightId) :: v = u₁ ++ x :: y :: v₁ →
      bpe.pairToRank.lookup (makePairKey x.2 y.2) = some rank → ⟨x.1, rank, x.2, y.2⟩ ∈
        bpe.pushPair symbols (bpe.pushPair symbols queue (u.getLast?.map Prod.fst)) (some top.pos) := by
    intro u₁ x y v₁ rank hne hlive hrank
    have hmem := covers.covered u₁ x y v₁ rank hlive hrank
    rcases List.mem_cons.mp hmem with heq | hmem
    · exact absurd (congrArg QueueElement.pos heq) hne
    · exact mem_pushPair _ _ _ (mem_pushPair _ _ _ hmem)
  constructor
  · exact pushPair_sorted _ _ _ (pushPair_sorted _ _ _ (List.pairwise_cons.mp covers.sorted).2)
  · exact pushPair_ranked _ _ _ (pushPair_ranked _ _ _ fun e he =>
      covers.ranked e (List.mem_cons_of_mem _ he))
  · intro u₁ x y v₁ rank hsplit hrank
    rcases List.append_eq_append_iff.mp hsplit with ⟨bs, rfl, hbs⟩ | ⟨bs, rfl, hbs⟩
    · cases bs with
      | nil =>
        obtain rfl : (top.pos, c) = x := (List.cons.inj hbs).1
        exact pushPair_adds bpe links _ hsplit hrank
      | cons z bs =>
        obtain rfl : v = bs ++ x :: y :: v₁ := (List.cons.inj hbs).2
        have hx := hv x (by simp)
        exact hkept (u ++ (top.pos, top.leftId) :: (q, top.rightId) :: bs) x y v₁ rank (by omega)
          (by simp) hrank
    · cases bs with
      | nil =>
        obtain rfl : x = (top.pos, c) := (List.cons.inj hbs).1
        exact pushPair_adds bpe links _ hsplit hrank
      | cons z bs =>
        obtain rfl : x = z := (List.cons.inj hbs).1
        have htail : y :: v₁ = bs ++ (top.pos, c) :: v := (List.cons.inj hbs).2
        cases bs with
        | nil =>
          -- the pair ends at the merged symbol
          have hlast : (u₁ ++ [x]).getLast?.map Prod.fst = some x.1 := by simp
          rw [hlast]
          exact mem_pushPair _ _ _ (pushPair_adds bpe links _ hsplit hrank)
        | cons z bs =>
          obtain rfl : y = z := (List.cons.inj htail).1
          have hx := hu x (by simp)
          exact hkept u₁ x y (bs ++ (top.pos, top.leftId) :: (q, top.rightId) :: v) rank (by omega)
            (by simp) hrank

/-- One turn keeps the links and the cover, leaves what the word merges to, and brings the
loop closer to its end. -/
theorem mergeTop_step (built : bpe.Built) (links : Links symbols live)
    (covers : Covers bpe (top :: queue) live) :
    ∃ live', Links (bpe.mergeTop symbols queue top).1 live' ∧
      Covers bpe (bpe.mergeTop symbols queue top).2 live' ∧
      merge bpe.tableRule (word live') = merge bpe.tableRule (word live) ∧
      live'.length ≤ live.length ∧
      2 * live'.length + (bpe.mergeTop symbols queue top).2.length <
        2 * live.length + (queue.length + 1) := by
  by_cases hstale : ∀ u q v, live ≠ u ++ (top.pos, top.leftId) :: (q, top.rightId) :: v
  · rw [mergeTop_stale bpe links hstale]
    refine ⟨live, links, ⟨?_, ?_, ?_⟩, rfl, Nat.le_refl _, ?_⟩
    · exact (List.pairwise_cons.mp covers.sorted).2
    · exact fun e he => covers.ranked e (List.mem_cons_of_mem _ he)
    · intro u x y v rank hlive hrank
      rcases List.mem_cons.mp (covers.covered u x y v rank hlive hrank) with heq | hmem
      · rw [← heq] at hstale
        exact absurd hlive (hstale u y.1 v)
      · exact hmem
    · dsimp only
      omega
  · simp only [not_forall, not_not] at hstale
    obtain ⟨u, q, v, rfl⟩ := hstale
    have hranked := covers.ranked top (List.mem_cons_self ..)
    obtain ⟨c, htable⟩ : ∃ c, bpe.tableRule top.leftId top.rightId = some (top.rank.toNat, c) := by
      rw [built.eq_rebuild] at hranked ⊢
      exact tableRule_of_lookup hranked
    have hfound := htable
    simp only [tableRule, hranked, Option.bind_eq_bind, Option.bind_some] at hfound
    obtain ⟨rule, hrule, hfound⟩ := Option.bind_eq_some_iff.mp hfound
    obtain rfl : rule.newId = c := (Prod.mk.inj (Option.some.inj hfound)).2
    rw [mergeTop_live bpe queue links hrule]
    have hlinks := links.merge rule.newId
    refine ⟨u ++ (top.pos, rule.newId) :: v, hlinks, covers.merge links.sorted hlinks, ?_, ?_, ?_⟩
    · have hbest := best_of_top covers links.sorted htable
      simp only [word, List.map_append] at hbest ⊢
      exact (merge_of_best hbest).symm
    · simp only [List.length_append, List.length_cons]
      omega
    · have hfirst := pushPair_length_le bpe
        (mergeSymbols symbols top.pos q (v.head?.map Prod.fst) rule.newId) queue
        (u.getLast?.map Prod.fst)
      have hsecond := pushPair_length_le bpe
        (mergeSymbols symbols top.pos q (v.head?.map Prod.fst) rule.newId)
        (bpe.pushPair (mergeSymbols symbols top.pos q (v.head?.map Prod.fst) rule.newId) queue
          (u.getLast?.map Prod.fst)) (some top.pos)
      simp only [List.length_append, List.length_cons] at hfirst hsecond ⊢
      omega

/-- With enough turns the loop ends, and the live symbols are then the merged word. -/
theorem mergeLoop_merges (built : bpe.Built) (turns : Nat) :
    ∀ (symbols : List Symbol) (queue : List QueueElement) (live : Live), Links symbols live →
      Covers bpe queue live → 2 * live.length + queue.length ≤ turns →
      ∃ symbols' live', bpe.mergeLoop turns symbols queue = some symbols' ∧ Links symbols' live' ∧
        live'.length ≤ live.length ∧ word live' = merge bpe.tableRule (word live) := by
  have hdone : ∀ (symbols : List Symbol) (live : Live), Links symbols live → Covers bpe [] live →
      word live = merge bpe.tableRule (word live) := by
    intro symbols live _ covers
    refine (merge_of_none (best_eq_none ?_)).symm
    intro s a b t hword
    by_contra hrule
    obtain ⟨⟨r⟩, hrule⟩ := Option.ne_none_iff_exists'.mp hrule
    obtain ⟨u, x, y, v, hlive, rfl, rfl⟩ := word_split hword
    obtain ⟨rank, hrank, -⟩ := tableRule_lookup hrule
    exact absurd (covers.covered u x y v rank hlive hrank) (List.not_mem_nil)
  induction turns with
  | zero =>
    intro symbols queue live links covers enough
    obtain rfl : queue = [] := List.length_eq_zero_iff.mp (by omega)
    exact ⟨symbols, live, rfl, links, Nat.le_refl _, hdone symbols live links covers⟩
  | succ turns ih =>
    intro symbols queue live links covers enough
    cases queue with
    | nil => exact ⟨symbols, live, rfl, links, Nat.le_refl _, hdone symbols live links covers⟩
    | cons top queue =>
      obtain ⟨live', hlinks, hcovers, hmerge, hle⟩ := mergeTop_step built links covers
      simp only [List.length_cons] at enough
      obtain ⟨symbols', live'', hloop, hlinks', hle', hword⟩ :=
        ih _ _ live' hlinks hcovers (by omega)
      exact ⟨symbols', live'', hloop, hlinks', by omega, hword.trans hmerge⟩

/-- Walking the links reads the live ids. -/
theorem collect_live (links : Links symbols live) (turns : Nat) (u v : Live) (hlive : live = u ++ v)
    (enough : v.length ≤ turns) : collect symbols turns (v.head?.map Prod.fst) = some (word v) := by
  induction turns generalizing u v with
  | zero =>
    obtain rfl : v = [] := List.length_eq_zero_iff.mp (Nat.le_zero.mp enough)
    rfl
  | succ turns ih =>
    cases v with
    | nil => rfl
    | cons x v =>
      have hx := links.entry u x v hlive
      have hrest := ih (u ++ [x]) v (by simp [hlive]) (by
        simp only [List.length_cons] at enough
        omega)
      simp only [List.head?_cons, Option.map_some, collect, hx, hrest]
      rfl

/-- Before the first merge every symbol is live. -/
def initialLive (initialIds : List TokenId) : Live := initialIds.mapIdx fun i id => (i, id)

theorem word_initialLive (initialIds : List TokenId) : word (initialLive initialIds) = initialIds := by
  apply List.ext_getElem?
  intro i
  simp only [word, initialLive, List.getElem?_map, List.getElem?_mapIdx]
  cases initialIds[i]? <;> rfl

theorem initialLive_getElem? {i : Nat} (h : (initialLive initialIds)[i]? = some x) :
    x.1 = i ∧ initialIds[i]? = some x.2 := by
  simp only [initialLive, List.getElem?_mapIdx] at h
  obtain ⟨id, hid, rfl⟩ := Option.map_eq_some_iff.mp h
  exact ⟨rfl, hid⟩

theorem initialLive_split (h : initialLive initialIds = u ++ x :: v) :
    x.1 = u.length ∧ initialIds[u.length]? = some x.2 ∧
      u.length + (v.length + 1) = initialIds.length := by
  have hx : (initialLive initialIds)[u.length]? = some x := by
    rw [h, List.getElem?_append_right (Nat.le_refl _), Nat.sub_self]
    rfl
  obtain ⟨hpos, hid⟩ := initialLive_getElem? hx
  have hlen := congrArg List.length h
  simp only [initialLive, List.length_mapIdx, List.length_append] at hlen
  exact ⟨hpos, hid, hlen.symm⟩

theorem initialLinks (h : initialIds ≠ []) :
    Links (initialSymbols initialIds) (initialLive initialIds) := by
  constructor
  · intro u x v hsplit
    obtain ⟨hpos, hid, hlen⟩ := initialLive_split hsplit
    rw [hpos, initialSymbols, List.getElem?_mapIdx, hid, Option.map_some]
    congr 2
    · cases hu : u.getLast? with
      | none =>
        rw [List.getLast?_eq_none_iff] at hu
        subst hu
        rfl
      | some z =>
        obtain ⟨u, rfl⟩ := List.getLast?_eq_some_iff.mp hu
        have hz := initialLive_split (show initialLive initialIds = u ++ z :: x :: v by simpa using hsplit)
        simp only [List.length_append, Option.map_some, hz.1]
        rfl
    · cases v with
      | nil => rw [if_pos (by simpa using hlen)]; rfl
      | cons y v =>
        have hy := initialLive_split
          (show initialLive initialIds = (u ++ [x]) ++ y :: v by simpa using hsplit)
        simp only [List.length_cons] at hlen
        rw [if_neg (by omega)]
        simp [hy.1]
  · have hmap : (initialLive initialIds).map Prod.fst = List.range initialIds.length := by
      apply List.ext_getElem?
      intro i
      simp only [initialLive, List.getElem?_map, List.getElem?_mapIdx]
      by_cases hi : i < initialIds.length
      · rw [List.getElem?_eq_getElem hi, List.getElem?_range hi]
        rfl
      · rw [List.getElem?_eq_none (by omega), List.getElem?_eq_none (by simpa using hi)]
        rfl
    rw [hmap]
    exact List.pairwise_lt_range
  · intro p s hs hdead
    rw [initialSymbols, List.getElem?_mapIdx] at hs
    obtain ⟨id, hid, -⟩ := Option.map_eq_some_iff.mp hs
    have hmem : (p, id) ∈ initialLive initialIds := by
      refine List.mem_of_getElem? (i := p) ?_
      rw [initialLive, List.getElem?_mapIdx, hid]
      rfl
    exact absurd rfl (hdead _ hmem)
  · cases initialIds with
    | nil => exact absurd rfl h
    | cons a ids => simp [initialLive]

theorem initialQueue_covers (bpe : Bpe) (h : initialIds ≠ []) :
    Covers bpe (bpe.initialQueue (initialSymbols initialIds)) (initialLive initialIds) ∧
      (bpe.initialQueue (initialSymbols initialIds)).length ≤ initialIds.length := by
  have links := initialLinks h
  have hlen : (initialSymbols initialIds).length = initialIds.length := by simp [initialSymbols]
  -- after the first `m` places the pairs that begin there are covered
  have hpush : ∀ m, ∃ queue, (List.range m).foldl
        (fun queue i => bpe.pushPair (initialSymbols initialIds) queue (some i)) [] = queue ∧
      queue.Pairwise QueueElement.notGt ∧
      (∀ e ∈ queue, bpe.pairToRank.lookup (makePairKey e.leftId e.rightId) = some e.rank) ∧
      (∀ u x y v rank, u.length < m → initialLive initialIds = u ++ x :: y :: v →
        bpe.pairToRank.lookup (makePairKey x.2 y.2) = some rank → ⟨x.1, rank, x.2, y.2⟩ ∈ queue) ∧
      queue.length ≤ m := by
    intro m
    induction m with
    | zero =>
      refine ⟨[], rfl, List.Pairwise.nil, ?_, ?_, Nat.le_refl _⟩
      · intro e he
        cases he
      · intro u x y v rank hu
        omega
    | succ m ih =>
      obtain ⟨queue, hqueue, hsorted, hranked, hcovered, hle⟩ := ih
      refine ⟨bpe.pushPair (initialSymbols initialIds) queue (some m), ?_, ?_, ?_, ?_, ?_⟩
      · rw [List.range_succ, List.foldl_append, hqueue]
        rfl
      · exact pushPair_sorted _ _ _ hsorted
      · exact pushPair_ranked _ _ _ hranked
      · intro u x y v rank hu hlive hrank
        by_cases heq : u.length = m
        · obtain ⟨hpos⟩ := initialLive_split hlive
          rw [← heq, ← hpos]
          exact pushPair_adds bpe links queue hlive hrank
        · exact mem_pushPair _ _ _ (hcovered u x y v rank (by omega) hlive hrank)
      · exact Nat.le_trans (pushPair_length_le _ _ _ _) (Nat.succ_le_succ hle)
  obtain ⟨queue, hqueue, hsorted, hranked, hcovered, hle⟩ := hpush (initialIds.length - 1)
  rw [initialQueue, hlen, hqueue]
  refine ⟨⟨hsorted, hranked, ?_⟩, by omega⟩
  intro u x y v rank hlive hrank
  obtain ⟨-, htotal⟩ := initialLive_split hlive
  simp only [List.length_cons] at htotal
  exact hcovered u x y v rank (by omega) hlive hrank

theorem tableRule_eq_none (h : bpe.rules.isEmpty || bpe.pairToRank.entries.isEmpty)
    (a b : TokenId) : bpe.tableRule a b = none := by
  simp only [tableRule]
  rcases Bool.or_eq_true_iff.mp h with h | h
  · rw [List.isEmpty_iff.mp h]
    cases bpe.pairToRank.lookup (makePairKey a b) <;> rfl
  · have hnone : bpe.pairToRank.lookup (makePairKey a b) = none := by
      rw [AList.lookup, List.isEmpty_iff.mp h]
      rfl
    rw [hnone]
    rfl

/-- Whatever the rules are, merging by the queue is greedy merging by the rank table. -/
theorem applyMerges_table (built : bpe.Built) (initialIds : List TokenId) {turns : Nat}
    (enough : turnsFor initialIds ≤ turns) :
    bpe.applyMerges turns initialIds = some (merge bpe.tableRule initialIds) := by
  unfold applyMerges
  split
  · rename_i hnil
    rw [List.isEmpty_iff.mp hnil]
    rfl
  rename_i hne
  split
  · rename_i hempty
    exact congrArg some (merge_of_none (best_eq_none fun _ a b _ _ => tableRule_eq_none hempty a b)).symm
  have hids : initialIds ≠ [] := by simpa using hne
  obtain ⟨covers⟩ := initialQueue_covers bpe hids
  have hlen : (initialLive initialIds).length = initialIds.length := by simp [initialLive]
  rw [turnsFor] at enough
  obtain ⟨symbols, live, hloop, links, hword⟩ :=
    mergeLoop_merges built turns _ _ _ (initialLinks hids) covers (by omega)
  have hcollect := collect_live links turns [] live rfl (by omega)
  rw [links.first] at hcollect
  rw [word_initialLive] at hword
  simp [hloop, hcollect, hword]

/-- With ranks that fit 32 bits, merging by the queue is greedy merging by the rules. -/
theorem applyMerges_greedy {bpe : Bpe} (built : bpe.Built) (few : bpe.rules.length ≤ 2 ^ 32)
    (initialIds : List TokenId) {turns : Nat} (enough : turnsFor initialIds ≤ turns) :
    bpe.applyMerges turns initialIds = some (merge (ruleFor bpe.rules) initialIds) := by
  have htable : bpe.tableRule = ruleFor bpe.rules := by
    conv_lhs => rw [built.eq_rebuild]
    exact tableRule_eq few
  rw [applyMerges_table built initialIds enough, htable]

/-- A repeated pair, the second rule for it deciding. -/
def repeatedRules : List MergeRule := [⟨97, 97, 256⟩, ⟨256, 97, 257⟩, ⟨97, 97, 258⟩]

theorem applyMerges_greedy_repeated :
    (({} : Bpe).setMergeRules repeatedRules).applyMerges 12 [97, 97, 97, 98] =
        some (merge (ruleFor repeatedRules) [97, 97, 97, 98]) ∧
      merge (ruleFor repeatedRules) [97, 97, 97, 98] = [258, 97, 98] :=
  ⟨applyMerges_greedy (.setMergeRules repeatedRules .new) (by decide) _ (by decide), by decide⟩

theorem lastRule_append (rules : List MergeRule) (rule : MergeRule) (found : Option (Nat × TokenId))
    (index : Nat) (a b : TokenId) :
    lastRule found index a b (rules ++ [rule]) =
      if rule.left = a ∧ rule.right = b then some (index + rules.length, rule.newId)
      else lastRule found index a b rules := by
  induction rules generalizing found index with
  | nil => rfl
  | cons r rules ih =>
    simp only [List.cons_append, lastRule, ih, List.length_cons]
    congr 3
    omega

/-- The rule behind `2 ^ 32` others has a rank that does not fit. -/
theorem ruleFor_append_replicate (first last : MergeRule) :
    ruleFor (List.replicate (2 ^ 32) first ++ [last]) last.left last.right =
      some (2 ^ 32, last.newId) := by
  rw [ruleFor, lastRule_append, if_pos ⟨rfl, rfl⟩, List.length_replicate, Nat.zero_add]

theorem getElem?_replicate_append (first last : MergeRule) :
    (List.replicate (2 ^ 32) first ++ [last])[0]? = some first := by
  have hfirst : 0 < (List.replicate (2 ^ 32) first).length := by
    rw [List.length_replicate]
    decide
  rw [List.getElem?_append_left hfirst, List.getElem?_replicate_of_lt (by decide)]

/-- A pair whose rank wraps around is merged to what the first rule says. -/
theorem applyMerges_wrapped {rules : List MergeRule} {first : MergeRule}
    (hrule : ruleFor rules a b = some (2 ^ 32, c)) (hfirst : rules[0]? = some first) :
    (({} : Bpe).setMergeRules rules).applyMerges 6 [a, b] = some [first.newId] ∧
      merge (ruleFor rules) [a, b] = [c] := by
  have hlookup := lookup_eq rules a b
  have hzero : UInt32.ofNat (2 ^ 32) = 0 := rfl
  rw [hrule, Option.map_some, hzero] at hlookup
  have hplace : (rebuildAccelerators rules).rules[(0 : UInt32).toNat]? = some first := hfirst
  have htable : (rebuildAccelerators rules).tableRule a b = some (0, first.newId) := by
    simp only [tableRule, hlookup, Option.bind_eq_bind, Option.bind_some, hplace]
    rfl
  constructor
  · rw [applyMerges_table (.setMergeRules rules .new) [a, b] (Nat.le_refl 6)]
    simp [merge, mergeSteps, best, setMergeRules, htable, mergeAt]
  · simp [merge, mergeSteps, best, hrule, mergeAt]

/-- One rule more than there are ranks. -/
def tooManyRules : List MergeRule := List.replicate (2 ^ 32) ⟨5, 6, 7⟩ ++ [⟨1, 2, 3⟩]

theorem applyMerges_tooManyRules :
    (({} : Bpe).setMergeRules tooManyRules).applyMerges 6 [1, 2] = some [7] ∧
      merge (ruleFor tooManyRules) [1, 2] = [3] :=
  applyMerges_wrapped (ruleFor_append_replicate ⟨5, 6, 7⟩ ⟨1, 2, 3⟩)
    (getElem?_replicate_append ⟨5, 6, 7⟩ ⟨1, 2, 3⟩)

end Bpe

end JobTokenizer
