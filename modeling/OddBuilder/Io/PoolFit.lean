import OddBuilder.Io.PagePoolRuns
import OddBuilder.Io.PoolWords

/-!
# What the two pools find

The searches of the range pool and of the page pool are exact: each answers
the least aligned position in the first free range that has one, and nothing
only when no free range has one. The bodies of both searches are also given
on machine words, where they compute the same.
-/

namespace JobIo

open Intervals JobMemRange Alignment JobPagePool

/-- The answer of a pool that looks for `bytes` bytes, seen from its free list: refusal means that
no member has a place, and else the answer is the least place of the first member that has one. -/
structure ExactAlloc {α β : Type} (free : List α) (Allowed : α → Nat → Prop) (address : Nat → Nat)
    (bytes alignment : Nat) (pool : β) (result : Nat × β) : Prop where
  refused_iff : result.1 = nullptr ↔ ∀ a ∈ free, ∀ place, ¬ Allowed a place
  unchanged : result.1 = nullptr → result.2 = pool
  served : result.1 ≠ nullptr → ∃ place, FirstLeast Allowed free place ∧ result.1 = address place
  aligned : result.1 ≠ nullptr → alignment ∣ result.1
  in_word : result.1 ≠ nullptr → result.1 + bytes ≤ sizeMax

section Exact

variable {α β : Type} {free : List α} {Allowed : α → Nat → Prop} {address : Nat → Nat}
  {bytes alignment : Nat} {pool : β} {result : Nat × β}

theorem ExactAlloc.of_refused (hresult : result = (nullptr, pool))
    (hnone : ∀ a ∈ free, ∀ place, ¬ Allowed a place) :
    ExactAlloc free Allowed address bytes alignment pool result := by
  subst hresult
  constructor
  · exact ⟨fun _ => hnone, fun _ => rfl⟩
  · exact fun _ => rfl
  · exact fun h => absurd rfl h
  · exact fun h => absurd rfl h
  · exact fun h => absurd rfl h

theorem ExactAlloc.of_served {place : Nat} (hfirst : FirstLeast Allowed free place)
    (hresult : result.1 = address place) (hne : address place ≠ nullptr)
    (haligned : alignment ∣ address place) (hword : address place + bytes ≤ sizeMax) :
    ExactAlloc free Allowed address bytes alignment pool result := by
  constructor
  · constructor
    · intro hnull
      exact absurd (hresult.symm.trans hnull) hne
    · intro hnone
      obtain ⟨front, a, back, rfl, -, hallowed, -⟩ := hfirst.found
      exact absurd hallowed (hnone a (by simp) place)
  · exact fun hnull => absurd (hresult.symm.trans hnull) hne
  · exact fun _ => ⟨place, hfirst, hresult⟩
  · intro _
    rwa [hresult]
  · intro _
    rwa [hresult]

theorem ExactAlloc.shorter {less : Nat} (hle : less ≤ bytes)
    (h : ExactAlloc free Allowed address bytes alignment pool result) :
    ExactAlloc free Allowed address less alignment pool result :=
  ⟨h.refused_iff, h.unchanged, h.served, h.aligned,
    fun hne => (Nat.add_le_add_left hle _).trans (h.in_word hne)⟩

end Exact

theorem none_unless {c : Prop} [Decidable c] {found : Option Nat} (h : ¬ c → found = none) :
    (if c then none else found) = none := by
  by_cases hc : c
  · rw [if_pos hc]
  · rw [if_neg hc, h hc]

namespace JobRangePool

variable {alignment size : Nat} {p : JobRangePool} {m : JobMmap}

/-- A block of `size` bytes at an aligned address inside the range. -/
structure BlockAt (base size alignment : Nat) (range : JobMemRange) (offset : Nat) : Prop where
  first_le : range.first ≤ offset
  le_last : offset + size ≤ range.last
  aligned : alignment ∣ base + offset

theorem alignUp_eq {value : Nat} (hv : 0 < value)
    (ha : validAlignment alignment = true) :
    alignUp value alignment = min (up value alignment) sizeMax := by
  simp only [alignUp, ha, Bool.not_true, Bool.false_eq_true, if_false]
  by_cases hguard : value > sizeMax - (alignment - 1)
  · have := (sum_guard hv ha).1 hguard
    rw [if_pos hguard, Nat.min_eq_right (by omega)]
  · have := (sum_guard hv ha).not.1 hguard
    rw [if_neg hguard, Nat.min_eq_left (by omega), masked_sum hv ha hguard]

/-- One turn of the search, for a range whose end is an address. -/
theorem fitRange_eq {base : Nat} {range : JobMemRange} (hbase : 0 < base) (hsize : 0 < size)
    (ha : validAlignment alignment = true) (hend : base + range.last ≤ sizeMax) :
    fitRange base size alignment range =
      if up (base + range.first) alignment + size ≤ base + range.last then
        some (up (base + range.first) alignment - base)
      else none := by
  have hle := le_up (Nat.pos_of_isPowerOfTwo (validAlignment_iff.1 ha))
    (base + range.first)
  have hordered := range.ordered
  unfold fitRange
  by_cases hempty : range.first = range.last
  · rw [if_pos (by simpa [empty] using hempty), if_neg (by omega)]
  · rw [if_neg (by simpa [empty] using hempty), if_neg (by omega)]
    rw [if_neg (by omega), alignUp_eq (by omega) ha]
    generalize up (base + range.first) alignment = aligned at hle ⊢
    by_cases hfits : aligned + size ≤ base + range.last
    · have hmin : min aligned sizeMax = aligned := Nat.min_eq_left (by omega)
      have hsentinel : ¬ (aligned == sizeMax) = true := by
        rw [beq_iff_eq]
        omega
      have hinside : ¬ (decide (aligned - base < range.first) ||
          decide (aligned - base ≥ range.last)) = true := by
        simp only [Bool.or_eq_true, decide_eq_true_eq]
        omega
      rw [if_pos hfits, hmin, if_neg hsentinel, if_neg (by omega), if_neg (by omega),
        if_neg hinside, if_neg (by omega)]
    · rw [if_neg hfits]
      refine none_unless fun _ => none_unless fun _ => none_unless fun _ => none_unless fun hinside =>
        none_unless fun hroom => ?_
      omega

theorem fitRange_findsLeast {base : Nat} {range : JobMemRange} (hbase : 0 < base) (hsize : 0 < size)
    (ha : validAlignment alignment = true) (hend : base + range.last ≤ sizeMax) :
    FindsLeast (BlockAt base size alignment) (fitRange base size alignment) range := by
  have hpos := Nat.pos_of_isPowerOfTwo (validAlignment_iff.1 ha)
  have hle := le_up hpos (base + range.first)
  have hleast : ∀ offset, BlockAt base size alignment range offset →
      up (base + range.first) alignment ≤ base + offset := by
    intro offset h
    apply (up_le_iff hpos h.aligned _).2
    exact Nat.add_le_add_left h.first_le base
  have heq := fitRange_eq hbase hsize ha hend
  constructor
  · intro offset hsome
    rw [heq] at hsome
    obtain ⟨hfits, hoffset⟩ := Option.ite_none_right_eq_some.1 hsome
    cases hoffset
    have haddr : base + (up (base + range.first) alignment - base) =
        up (base + range.first) alignment := by omega
    refine ⟨⟨by omega, by omega, ?_⟩, ?_⟩
    · rw [haddr]
      exact dvd_up _ _
    · intro other hother
      have := hleast other hother
      omega
  · intro hnone offset h
    have hup := hleast offset h
    have hlast := h.le_last
    rw [heq, if_pos (by omega)] at hnone
    cases hnone

/-- Address of the first byte of the mapping; any number will do while there is none. -/
def base (p : JobRangePool) : Nat :=
  match p.mmap with
  | none => 0
  | some m => m.addr

theorem findFreeRange_eq (hm : p.mmap = some m) (full : m.Full) (hsize : 0 < size)
    (ha : validAlignment alignment = true) :
    p.findFreeRange size alignment =
      firstFit (fitRange m.addr size alignment) 0 p.freeRanges := by
  simp [findFreeRange, hm, full.isValid, full.addr_ne, ha, Nat.ne_of_gt hsize]

theorem Bookkeeping.findsLeast (full : m.Full) (book : Bookkeeping p m.mapLength) (hsize : 0 < size)
    (ha : validAlignment alignment = true) : ∀ r ∈ p.freeRanges,
      FindsLeast (BlockAt m.addr size alignment) (fitRange m.addr size alignment) r := by
  intro r hr
  have hlast := book.partition.free_hi hr (book.separated.nonempty r hr)
  have hend := full.representable
  rw [hi_eq] at hlast
  exact fitRange_findsLeast (Nat.pos_of_ne_zero full.addr_ne) hsize ha (by omega)

/-- A free byte is no key of a live block. -/
theorem Bookkeeping.free_fresh {n : Nat} (book : Bookkeeping p n) {r : JobMemRange}
    (hr : r ∈ p.freeRanges) {offset : Nat} (hx : Covers r offset) : offset ∉ p.allocations := by
  intro hmem
  obtain ⟨size, found⟩ := Option.isSome_iff_exists.mp (AList.lookup_isSome.mpr hmem)
  have he : (⟨offset, size⟩ : RangeBlock) ∈ p.allocations.entries := AList.mem_lookup_iff.mp found
  have hpos := book.sizes _ he
  exact book.partition.free_live hr he hx ⟨Nat.le_refl _, Nat.lt_add_of_pos_right hpos⟩

/-- Where the search finds a place, the call takes it. -/
theorem alloc_found (hm : p.mmap = some m) (full : m.Full) {index offset : Nat} (hsize : 0 < size)
    (ha : validAlignment alignment = true) (hlt : offset < m.mapLength)
    (hfound : p.findFreeRange size alignment = some (index, offset))
    (hfresh : offset ∉ p.allocations) :
    (p.alloc size alignment).1 = m.addr + offset ∧
      (p.alloc size alignment).2.allocations = p.allocations.insert offset size := by
  have hvalid := full.isValid
  have hne := full.addr_ne
  have hlength : ¬ m.mapLength ≤ offset := Nat.not_le.2 hlt
  simp [alloc, ha, Nat.ne_of_gt hsize, hm, hvalid, hfound, hfresh, ptrAt, hne, hlength]

theorem Bookkeeping.exactAlloc (hm : p.mmap = some m) (full : m.Full)
    (book : Bookkeeping p m.mapLength) (hsize : 0 < size)
    (ha : validAlignment alignment = true) :
    ExactAlloc p.freeRanges (BlockAt p.base size alignment) (p.base + ·) size alignment p
        (p.alloc size alignment) ∧
      ∀ k v, p.allocations.lookup k = some v →
        (p.alloc size alignment).2.allocations.lookup k = some v := by
  have hbase : p.base = m.addr := by simp [base, hm]
  have least := book.findsLeast full hsize ha
  have hsearch := findFreeRange_eq hm full hsize ha
  have hpos := Nat.pos_of_ne_zero full.addr_ne
  have hend := full.representable
  rw [hbase]
  cases hfound : p.findFreeRange size alignment with
  | none =>
    have hresult : p.alloc size alignment = (nullptr, p) := by
      simp [JobRangePool.alloc, hfound]
    rw [hsearch] at hfound
    refine ⟨.of_refused hresult (firstFit_none_allowed least hfound), ?_⟩
    intro k v hk
    rwa [hresult]
  | some found =>
    obtain ⟨index, offset⟩ := found
    have hfirst := hsearch ▸ hfound
    have hplace := firstFit_firstLeast least hfirst
    obtain ⟨front, r, back, hfree, -, hblock, -⟩ := hplace.found
    have hr : r ∈ p.freeRanges := by rw [hfree]; simp
    have hlast := book.partition.free_hi hr (book.separated.nonempty r hr)
    rw [hi_eq] at hlast
    have hlow := hblock.first_le
    have hhigh := hblock.le_last
    have hfresh : offset ∉ p.allocations := book.free_fresh hr
      ⟨hlow, by rw [hi_eq]; omega⟩
    obtain ⟨haddr, halloc⟩ := alloc_found hm full hsize ha (by omega) hfound hfresh
    refine ⟨.of_served hplace haddr ?_ hblock.aligned (by omega), ?_⟩
    · unfold nullptr
      omega
    · intro k v hk
      have hne : k ≠ offset := by
        rintro rfl
        exact hfresh (AList.lookup_isSome.mp (by rw [hk]; rfl))
      rw [halloc, AList.lookup_insert_ne hne]
      exact hk

theorem Bookkeeping.word_fitRange (full : m.Full) (book : Bookkeeping p m.mapLength)
    (hsize : size ≤ sizeMax) (ha : alignment ≤ sizeMax) {r : JobMemRange} (hr : r ∈ p.freeRanges) :
    (Word.fitRange (.ofNat m.addr) (.ofNat size) (.ofNat alignment) (.ofNat r.first)
      (.ofNat r.last)).map UInt64.toNat = fitRange m.addr size alignment r := by
  have hlast := book.partition.free_hi hr (book.separated.nonempty r hr)
  have hend := full.representable
  have hordered := r.ordered
  rw [hi_eq] at hlast
  have word : ∀ x, x ≤ sizeMax → (UInt64.ofNat x).toNat = x := fun x hx =>
    UInt64.toNat_ofNat_of_lt' ((lt_word x).2 hx)
  rw [Word.fitRange_eq _ _ _ _ _ (by rw [word _ (by omega), word _ (by omega)]; exact hordered)]
  congr
  · exact word _ (by omega)
  · exact word _ hsize
  · exact word _ ha
  · exact word _ (by omega)
  · exact word _ (by omega)

end JobRangePool

namespace JobPagePool

/-- A run of `pageCount` pages at an aligned address inside the span. -/
structure PagesAt (base pageSize pageCount alignment : Nat) (span : JobMemSpan) (page : Nat) :
    Prop where
  first_le : span.firstPageIndex ≤ page
  le_last : page + pageCount ≤ span.endPageIndex
  aligned : alignment ∣ base + page * pageSize

/-- One turn of the search, for a span of whole pages whose end is an address. -/
theorem fitSpan_eq {base pageSize pageCount alignment : Nat} {span : JobMemSpan} (hbase : 0 < base)
    (hps : validAlignment pageSize = true) (hdvd : pageSize ∣ base)
    (hcount : 0 < pageCount) (ha : validAlignment alignment = true)
    (hend : base + span.endPageIndex * pageSize ≤ sizeMax) :
    fitSpan base pageSize pageCount alignment span =
      let aligned := up (base + span.firstPageIndex * pageSize) alignment
      if aligned + pageCount * pageSize ≤ base + span.endPageIndex * pageSize then
        some ((aligned - base) / pageSize)
      else none := by
  have hpower := validAlignment_iff.1 ha
  have hpages := validAlignment_iff.1 hps
  have hpos := Nat.pos_of_isPowerOfTwo hpages
  have hle := le_up (Nat.pos_of_isPowerOfTwo hpower)
    (base + span.firstPageIndex * pageSize)
  have hmultiple : pageSize ∣ up (base + span.firstPageIndex * pageSize) alignment :=
    dvd_up_of_dvd hpower hpages (Nat.dvd_add hdvd (Nat.dvd_mul_left _ _))
  have hfirst : span.firstPageIndex * pageSize ≤ span.endPageIndex * pageSize :=
    Nat.mul_le_mul_right _ (Nat.le_add_right _ _)
  have hguard : base + span.firstPageIndex * pageSize > sizeMax - (alignment - 1) ↔ _ :=
    sum_guard (by omega) ha
  have hmasked := masked_sum (Nat.add_pos_left hbase (span.firstPageIndex * pageSize)) ha
  have hdiv : ¬ span.firstPageIndex > sizeMax / pageSize := by
    rw [Nat.not_lt, Nat.le_div_iff_mul_le hpos]
    omega
  unfold fitSpan
  dsimp only
  generalize up (base + span.firstPageIndex * pageSize) alignment = aligned at *
  obtain ⟨page, hpage⟩ : pageSize ∣ aligned - base := Nat.dvd_sub hmultiple hdvd
  rw [Nat.mul_comm pageSize page] at hpage
  have hquotient : (aligned - base) / pageSize = page := by
    rw [hpage, Nat.mul_div_cancel _ hpos]
  have hlow : span.firstPageIndex ≤ page := by
    apply Nat.le_of_mul_le_mul_right _ hpos
    omega
  have hfits : aligned + pageCount * pageSize ≤ base + span.endPageIndex * pageSize ↔
      page + pageCount ≤ span.endPageIndex := by
    have hscaled : page + pageCount ≤ span.endPageIndex ↔
        (page + pageCount) * pageSize ≤ span.endPageIndex * pageSize :=
      (Nat.mul_le_mul_right_iff hpos).symm
    rw [hscaled, Nat.add_mul]
    omega
  rw [if_congr hfits rfl rfl]
  have hcandidate : ¬ page < span.firstPageIndex := Nat.not_lt.2 hlow
  by_cases hroom : page + pageCount ≤ span.endPageIndex
  · have hword : ¬ base + span.firstPageIndex * pageSize > sizeMax - (alignment - 1) :=
      hguard.not.2 (by omega)
    have hcount' : ¬ span.pageCount < pageCount := by
      unfold JobMemSpan.endPageIndex at hroom
      omega
    rw [if_pos hroom, if_neg hcount', if_neg hdiv, if_neg (by omega), if_neg hword, hmasked hword,
      if_neg (by omega), if_neg (by omega), if_neg (by simp [hpage]), hquotient,
      if_neg hcandidate, if_neg (by omega), if_neg (by omega)]
  · rw [if_neg hroom]
    refine none_unless fun _ => none_unless fun _ => none_unless fun _ => none_unless fun hword => ?_
    rw [hmasked hword]
    refine none_unless fun _ => none_unless fun _ => none_unless fun _ => none_unless fun _ =>
      none_unless fun hlow' => none_unless fun hroom' => ?_
    omega

theorem fitSpan_findsLeast {base pageSize pageCount alignment : Nat} {span : JobMemSpan}
    (hbase : 0 < base) (hps : validAlignment pageSize = true) (hdvd : pageSize ∣ base)
    (hcount : 0 < pageCount) (ha : validAlignment alignment = true)
    (hend : base + span.endPageIndex * pageSize ≤ sizeMax) :
    FindsLeast (PagesAt base pageSize pageCount alignment)
      (fitSpan base pageSize pageCount alignment) span := by
  have hpower := validAlignment_iff.1 ha
  have hpages := validAlignment_iff.1 hps
  have hpos := Nat.pos_of_isPowerOfTwo hpages
  have hapos := Nat.pos_of_isPowerOfTwo hpower
  have hle := le_up hapos (base + span.firstPageIndex * pageSize)
  have hmultiple : pageSize ∣ up (base + span.firstPageIndex * pageSize) alignment :=
    dvd_up_of_dvd hpower hpages (Nat.dvd_add hdvd (Nat.dvd_mul_left _ _))
  have hleast : ∀ page, PagesAt base pageSize pageCount alignment span page →
      up (base + span.firstPageIndex * pageSize) alignment ≤ base + page * pageSize := by
    intro page h
    apply (up_le_iff hapos h.aligned _).2
    exact Nat.add_le_add_left (Nat.mul_le_mul_right _ h.first_le) base
  have heq := fitSpan_eq hbase hps hdvd hcount ha hend
  dsimp only at heq
  have hdiv : ∀ other, up (base + span.firstPageIndex * pageSize) alignment ≤
      base + other * pageSize →
      (up (base + span.firstPageIndex * pageSize) alignment - base) / pageSize ≤ other := by
    intro other h
    rw [← Nat.lt_succ_iff, Nat.div_lt_iff_lt_mul hpos, Nat.succ_mul]
    omega
  obtain ⟨page, hpage⟩ :
      pageSize ∣ up (base + span.firstPageIndex * pageSize) alignment - base :=
    Nat.dvd_sub hmultiple hdvd
  have hquotient : (up (base + span.firstPageIndex * pageSize) alignment - base) /
      pageSize = page := by
    rw [hpage, Nat.mul_div_cancel_left _ hpos]
  rw [Nat.mul_comm pageSize page] at hpage
  rw [hquotient] at heq hdiv
  constructor
  · intro found hsome
    rw [heq] at hsome
    obtain ⟨hfits, hfound⟩ := Option.ite_none_right_eq_some.1 hsome
    cases hfound
    have haddr : base + page * pageSize =
        up (base + span.firstPageIndex * pageSize) alignment := by omega
    refine ⟨⟨?_, ?_, ?_⟩, ?_⟩
    · apply Nat.le_of_mul_le_mul_right _ hpos
      omega
    · apply Nat.le_of_mul_le_mul_right _ hpos
      rw [Nat.add_mul]
      omega
    · rw [haddr]
      exact dvd_up _ _
    · intro other hother
      exact hdiv other (hleast other hother)
  · intro hnone other h
    have hup := hleast other h
    have hlast := Nat.mul_le_mul_right pageSize h.le_last
    rw [Nat.add_mul] at hlast
    rw [heq, if_pos (by omega)] at hnone
    cases hnone

/-- Address of the first page; any number will do while there is none. -/
def base (p : JobPagePool) : Nat :=
  match p.extent with
  | none => 0
  | some extent => extent.addr

section Found

variable {extent : JobMemExtent} {pageSize : Nat} {p : JobPagePool}
variable {count alignment size : Nat} {s : JobMemSpan}

theorem PageBookkeeping.end_le (geo : PageGeometry extent pageSize)
    (book : PageBookkeeping extent pageSize p) (hs : s ∈ p.freeSpans) :
    s.endPageIndex * pageSize ≤ extent.size := by
  have hlast := book.partition.free_hi hs (book.separated.nonempty s hs)
  calc s.endPageIndex * pageSize ≤ extent.size / pageSize * pageSize :=
        Nat.mul_le_mul_right _ hlast
    _ = extent.size := geo.count_mul

theorem PageGeometry.validAlignment (geo : PageGeometry extent pageSize) :
    validAlignment pageSize = true := by
  have h := geo.valid
  unfold validPageGeometry at h
  split at h
  · cases h
  · rename_i hguard
    simp only [Bool.or_eq_true, not_or, Bool.not_eq_true', Bool.not_eq_false] at hguard
    exact hguard.2

theorem PageBookkeeping.findsLeast (geo : PageGeometry extent pageSize)
    (book : PageBookkeeping extent pageSize p) (hcount : 0 < count)
    (ha : validAlignment alignment = true) : ∀ s ∈ p.freeSpans,
      FindsLeast (PagesAt extent.addr pageSize count alignment)
        (fitSpan extent.addr pageSize count alignment) s := by
  intro s hs
  have hlast := book.end_le geo hs
  have hend := geo.representable
  exact fitSpan_findsLeast geo.addr_pos geo.validAlignment
    (Nat.dvd_of_mod_eq_zero geo.facts.2.2.2.1) hcount ha (by omega)

/-- A free page is the first page of no live block. -/
theorem PageBookkeeping.free_fresh (book : PageBookkeeping extent pageSize p) (hs : s ∈ p.freeSpans)
    {page : Nat} (hx : Covers s page) : page ∉ p.allocations := by
  intro hmem
  obtain ⟨allocation, found⟩ := Option.isSome_iff_exists.mp (AList.lookup_isSome.mpr hmem)
  have he : (⟨page, allocation⟩ : PageBlock) ∈ p.allocations.entries :=
    AList.mem_lookup_iff.mp found
  have hpos := (book.blocks _ he).1
  exact book.partition.free_live hs he hx ⟨Nat.le_refl _, Nat.lt_add_of_pos_right hpos⟩

theorem PageBookkeeping.exactTake (geo : PageGeometry extent pageSize)
    (book : PageBookkeeping extent pageSize p) (hcount : 0 < count)
    (ha : validAlignment alignment = true) (requested : Nat) :
    ExactAlloc p.freeSpans (PagesAt extent.addr pageSize count alignment)
        (extent.addr + · * pageSize) (count * pageSize) alignment p
        (p.takePages extent count alignment requested) ∧
      ∀ k v, p.allocations.lookup k = some v →
        (p.takePages extent count alignment requested).2.allocations.lookup k = some v := by
  have hps := geo.pageSize_pos
  have least := book.findsLeast geo hcount ha
  have hsearch : p.findFreeSpan count alignment =
      firstFit (fitSpan extent.addr pageSize count alignment) 0 p.freeSpans := by
    simp [findFreeSpan, book.extent_eq, geo.mapped, book.pageSize_eq, Nat.ne_of_gt hps, ha,
      Nat.ne_of_gt hcount]
  cases hfound : p.findFreeSpan count alignment with
  | none =>
    have hresult : p.takePages extent count alignment requested = (nullptr, p) := by
      simp [takePages, hfound]
    rw [hsearch] at hfound
    refine ⟨.of_refused hresult (firstFit_none_allowed least hfound), ?_⟩
    intro k v hk
    rwa [hresult]
  | some found =>
    obtain ⟨index, page⟩ := found
    have hfirst := hsearch ▸ hfound
    have hplace := firstFit_firstLeast least hfirst
    obtain ⟨front, s, back, hfree, -, hblock, -⟩ := hplace.found
    have hs : s ∈ p.freeSpans := by rw [hfree]; simp
    have hend := book.end_le geo hs
    have hlow := hblock.first_le
    have hhigh := Nat.mul_le_mul_right pageSize hblock.le_last
    rw [Nat.add_mul] at hhigh
    have hfresh : page ∉ p.allocations := by
      apply book.free_fresh hs
      refine ⟨hlow, ?_⟩
      have := hblock.le_last
      simp only [JobMemSpan.endPageIndex] at this
      rw [JobMemSpan.hi_eq]
      omega
    have hpage : page < p.pages.length := by
      have hlast := book.partition.free_hi hs (book.separated.nonempty s hs)
      have hle := hblock.le_last
      have hpages : p.pages.length = extent.size / pageSize := book.pageCount
      rw [JobMemSpan.hi_eq] at hlast
      simp only [JobMemSpan.endPageIndex] at hle
      omega
    have hindex : ¬ page > sizeMax / pageSize := by
      rw [Nat.not_lt, Nat.le_div_iff_mul_le hps]
      have := geo.representable
      omega
    have haddr : (p.takePages extent count alignment requested).1 =
        extent.addr + page * pageSize := by
      simp [takePages, hfound, hfresh, ptrAtPage, book.extent_eq, geo.mapped, Nat.not_le.2 hpage,
        book.pageSize_eq, hindex, JobMemExtent.ptrAt]
    have halloc : (p.takePages extent count alignment requested).2.allocations =
        p.allocations.insert page ⟨page, count, requested⟩ := by
      simp [takePages, hfound, hfresh]
    have hrepresentable := geo.representable
    have hpos := geo.addr_pos
    refine ⟨.of_served hplace haddr ?_ hblock.aligned (by omega), ?_⟩
    · unfold nullptr
      omega
    · intro k v hk
      have hne : k ≠ page := by
        rintro rfl
        exact hfresh (AList.lookup_isSome.mp (by rw [hk]; rfl))
      rw [halloc, AList.lookup_insert_ne hne]
      exact hk

/-- A block of `size` bytes that starts with a page of the span, at an aligned address. -/
structure BytesAt (base pageSize size alignment : Nat) (span : JobMemSpan) (page : Nat) : Prop where
  first_le : span.firstPageIndex ≤ page
  le_last : page * pageSize + size ≤ span.endPageIndex * pageSize
  aligned : alignment ∣ base + page * pageSize

/-- The pages of a request are the least number of pages that hold it. -/
theorem pagesForSize_le_iff (hps : 0 < pageSize) (hsize : 0 < size) (count : Nat) :
    pagesForSize size pageSize ≤ count ↔ size ≤ count * pageSize := by
  have hdiv := Nat.div_add_mod size pageSize
  have hguard : ¬ (size == 0 || pageSize == 0) = true := by
    simp [Nat.ne_of_gt hsize, Nat.ne_of_gt hps]
  rw [Nat.mul_comm] at hdiv
  unfold pagesForSize
  rw [if_neg hguard]
  by_cases hexact : size % pageSize = 0
  · rw [if_neg (by simpa using hexact), Nat.add_zero]
    rw [← Nat.mul_le_mul_right_iff hps]
    omega
  · rw [if_pos hexact, Nat.succ_le_iff, Nat.div_lt_iff_lt_mul hps]
    constructor
    · exact Nat.le_of_lt
    · intro hle
      refine Nat.lt_of_le_of_ne hle ?_
      rintro rfl
      exact hexact (Nat.mul_mod_left count pageSize)

theorem bytesAt_eq {base : Nat} (hps : 0 < pageSize) (hsize : 0 < size) (alignment : Nat) :
    BytesAt base pageSize size alignment =
      PagesAt base pageSize (pagesForSize size pageSize) alignment := by
  funext span page
  have hfits : page * pageSize + size ≤ span.endPageIndex * pageSize ↔
      page ≤ span.endPageIndex ∧ size ≤ (span.endPageIndex - page) * pageSize := by
    have hscaled : page ≤ span.endPageIndex ↔ page * pageSize ≤ span.endPageIndex * pageSize :=
      (Nat.mul_le_mul_right_iff hps).symm
    rw [Nat.sub_mul]
    omega
  apply propext
  constructor
  · rintro ⟨hlow, hlast, ha⟩
    obtain ⟨hle, hroom⟩ := hfits.1 hlast
    have := (pagesForSize_le_iff hps hsize _).2 hroom
    exact ⟨hlow, by omega, ha⟩
  · rintro ⟨hlow, hlast, ha⟩
    refine ⟨hlow, hfits.2 ⟨by omega, ?_⟩, ha⟩
    exact (pagesForSize_le_iff hps hsize _).1 (by omega)

theorem PageBookkeeping.exactAlloc (geo : PageGeometry extent pageSize)
    (book : PageBookkeeping extent pageSize p) (hsize : 0 < size)
    (ha : validAlignment alignment = true) :
    ExactAlloc p.freeSpans (BytesAt extent.addr pageSize size alignment)
        (extent.addr + · * pageSize) size alignment p (p.alloc size alignment) ∧
      ∀ k v, p.allocations.lookup k = some v →
        (p.alloc size alignment).2.allocations.lookup k = some v := by
  have hps := geo.pageSize_pos
  have hle := (pagesForSize_le_iff hps hsize _).1 (Nat.le_refl _)
  have hcount : 0 < pagesForSize size pageSize := by
    apply Nat.pos_of_ne_zero
    intro hzero
    rw [hzero] at hle
    omega
  have hcall : p.alloc size alignment =
      p.takePages extent (pagesForSize size pageSize) alignment size := by
    simp [JobPagePool.alloc, ha, Nat.ne_of_gt hsize, book.extent_eq, geo.mapped, book.pageSize_eq,
      Nat.ne_of_gt hps, Nat.ne_of_gt hcount]
  obtain ⟨hexact, hkeeps⟩ := book.exactTake geo hcount ha size
  rw [hcall, bytesAt_eq hps hsize]
  exact ⟨hexact.shorter hle, hkeeps⟩

theorem PageBookkeeping.exactAllocPages (geo : PageGeometry extent pageSize)
    (book : PageBookkeeping extent pageSize p) (hcount : 0 < count) :
    ExactAlloc p.freeSpans (PagesAt extent.addr pageSize count pageSize)
        (extent.addr + · * pageSize) (count * pageSize) pageSize p (p.allocPages count) ∧
      ∀ k v, p.allocations.lookup k = some v →
        (p.allocPages count).2.allocations.lookup k = some v := by
  have hps := geo.pageSize_pos
  by_cases hlarge : count > sizeMax / pageSize
  · have hcall : p.allocPages count = (nullptr, p) := by
      simp [JobPagePool.allocPages, book.extent_eq, book.pageSize_eq, hlarge]
    refine ⟨.of_refused hcall ?_, ?_⟩
    · intro s hs page hblock
      have hend := book.end_le geo hs
      have hword := geo.representable
      have hfits := Nat.mul_le_mul_right pageSize hblock.le_last
      rw [gt_iff_lt, Nat.div_lt_iff_lt_mul hps] at hlarge
      rw [Nat.add_mul] at hfits
      omega
    · intro k v hk
      rwa [hcall]
  · have hcall : p.allocPages count =
        p.takePages extent count pageSize (count * pageSize) := by
      simp [JobPagePool.allocPages, Nat.ne_of_gt hcount, book.extent_eq, geo.mapped,
        book.pageSize_eq, Nat.ne_of_gt hps, hlarge]
    rw [hcall]
    exact book.exactTake geo hcount geo.validAlignment _

theorem PageBookkeeping.word_fitSpan (geo : PageGeometry extent pageSize)
    (book : PageBookkeeping extent pageSize p) (hcount : count ≤ sizeMax)
    (ha : validAlignment alignment = true) (hword : alignment ≤ sizeMax)
    (hs : s ∈ p.freeSpans) :
    (Word.fitSpan (.ofNat extent.addr) (.ofNat pageSize) (.ofNat count) (.ofNat alignment)
      (.ofNat s.firstPageIndex) (.ofNat s.pageCount)).map UInt64.toNat =
      fitSpan extent.addr pageSize count alignment s := by
  have hps := geo.pageSize_pos
  have hend := book.end_le geo hs
  have hrepresentable := geo.representable
  have hone := Nat.le_mul_of_pos_right s.endPageIndex hps
  have hpages : pageSize ≤ extent.size := by
    have := geo.page_lt geo.count_pos
    omega
  have hlast : s.firstPageIndex + s.pageCount ≤ sizeMax := by
    simp only [JobMemSpan.endPageIndex] at hone hend
    omega
  have word : ∀ x, x ≤ sizeMax → (UInt64.ofNat x).toNat = x := fun x hx =>
    UInt64.toNat_ofNat_of_lt' ((lt_word x).2 hx)
  have hpos := Nat.pos_of_isPowerOfTwo (validAlignment_iff.1 ha)
  rw [Word.fitSpan_eq _ _ _ _ _ _ (by rwa [word _ (by omega)])
    (by rw [word _ hword]; omega) (by rwa [word _ (by omega), word _ (by omega)])
    (word _ (by omega)).symm (word _ (by omega)).symm, word _ (by omega), word _ (by omega),
    word _ hcount, word _ hword]

end Found

/-- A pool without an extent stays so, and has no free span. -/
theorem run_unset (ops : List PageOp) : ∀ p : JobPagePool, p.extent = none → p.freeSpans = [] →
    (run p ops).extent = none ∧ (run p ops).freeSpans = [] := by
  induction ops with
  | nil => exact fun p hextent hfree => ⟨hextent, hfree⟩
  | cons op ops ih =>
    intro p hextent hfree
    have hstep : (step p op).extent = none ∧ (step p op).freeSpans = [] := by
      cases op with
      | alloc size alignment => simp [step, alloc, hextent, hfree]
      | allocPages count => simp [step, allocPages, hextent, hfree]
      | free ptr => simp [step, free, hextent, hfree]
      | clear => simp [step, clear, hextent]
    exact ih _ hstep.1 hstep.2

/-- What is exact about a call of `alloc`. -/
structure PageExact (p : JobPagePool) (size alignment : Nat) : Prop where
  answer : ExactAlloc p.freeSpans (BytesAt p.base p.pageSize size alignment)
    (p.base + · * p.pageSize) size alignment p (p.alloc size alignment)
  keeps : ∀ k v, p.allocations.lookup k = some v →
    (p.alloc size alignment).2.allocations.lookup k = some v
  words : size ≤ sizeMax → alignment ≤ sizeMax → ∀ s ∈ p.freeSpans,
    (Word.fitSpan (.ofNat p.base) (.ofNat p.pageSize) (.ofNat (pagesForSize size p.pageSize))
      (.ofNat alignment) (.ofNat s.firstPageIndex) (.ofNat s.pageCount)).map UInt64.toNat =
      fitSpan p.base p.pageSize (pagesForSize size p.pageSize) alignment s

/-- What is exact about a call of `allocPages`. -/
structure PagesExact (p : JobPagePool) (count : Nat) : Prop where
  answer : ExactAlloc p.freeSpans (PagesAt p.base p.pageSize count p.pageSize)
    (p.base + · * p.pageSize) (count * p.pageSize) p.pageSize p (p.allocPages count)
  keeps : ∀ k v, p.allocations.lookup k = some v →
    (p.allocPages count).2.allocations.lookup k = some v
  words : count ≤ sizeMax → ∀ s ∈ p.freeSpans,
    (Word.fitSpan (.ofNat p.base) (.ofNat p.pageSize) (.ofNat count) (.ofNat p.pageSize)
      (.ofNat s.firstPageIndex) (.ofNat s.pageCount)).map UInt64.toNat =
      fitSpan p.base p.pageSize count p.pageSize s

theorem pagesForSize_le {size pageSize : Nat} (hps : 0 < pageSize) (hsize : 0 < size) :
    pagesForSize size pageSize ≤ size :=
  (pagesForSize_le_iff hps hsize size).2 (Nat.le_mul_of_pos_right _ hps)

section Unset

variable {p : JobPagePool} (hextent : p.extent = none) (hfree : p.freeSpans = [])
include hextent hfree

theorem PageExact.of_unset (size alignment : Nat) : PageExact p size alignment := by
  have hcall : p.alloc size alignment = (nullptr, p) := by simp [alloc, hextent]
  constructor
  · apply ExactAlloc.of_refused hcall
    rw [hfree]
    exact fun s hs => absurd hs List.not_mem_nil
  · intro k v hk
    rwa [hcall]
  · rw [hfree]
    exact fun _ _ s hs => absurd hs List.not_mem_nil

theorem PagesExact.of_unset (count : Nat) : PagesExact p count := by
  have hcall : p.allocPages count = (nullptr, p) := by simp [allocPages, hextent]
  constructor
  · apply ExactAlloc.of_refused hcall
    rw [hfree]
    exact fun s hs => absurd hs List.not_mem_nil
  · intro k v hk
    rwa [hcall]
  · rw [hfree]
    exact fun _ s hs => absurd hs List.not_mem_nil

end Unset

section Kept

variable {extent : JobMemExtent} {pageSize : Nat} {p : JobPagePool}

theorem PageExact.of_bookkeeping (geo : PageGeometry extent pageSize)
    (book : PageBookkeeping extent pageSize p) {size alignment : Nat} (hsize : 0 < size)
    (ha : validAlignment alignment = true) : PageExact p size alignment := by
  have hbase : p.base = extent.addr := by simp [base, book.extent_eq]
  obtain ⟨hexact, hkeeps⟩ := book.exactAlloc geo hsize ha
  refine ⟨?_, hkeeps, ?_⟩
  · rwa [hbase, book.pageSize_eq]
  · intro hword halignment s hs
    rw [hbase, book.pageSize_eq]
    exact book.word_fitSpan geo ((pagesForSize_le geo.pageSize_pos hsize).trans hword) ha
      halignment hs

theorem PagesExact.of_bookkeeping (geo : PageGeometry extent pageSize)
    (book : PageBookkeeping extent pageSize p) {count : Nat} (hcount : 0 < count) :
    PagesExact p count := by
  have hbase : p.base = extent.addr := by simp [base, book.extent_eq]
  obtain ⟨hexact, hkeeps⟩ := book.exactAllocPages geo hcount
  refine ⟨?_, hkeeps, ?_⟩
  · rwa [hbase, book.pageSize_eq]
  · intro hword s hs
    rw [hbase, book.pageSize_eq]
    refine book.word_fitSpan geo hword geo.validAlignment ?_ hs
    have := geo.page_lt geo.count_pos
    have := geo.representable
    omega

end Kept

/-- Either the constructor accepts the geometry, or the pool has no extent and no span. -/
theorem init_cases (extent : Option JobMemExtent) (pageSize : Nat) :
    (∃ e, extent = some e ∧ validPageGeometry e pageSize = true) ∨
      (init extent pageSize).extent = none ∧ (init extent pageSize).freeSpans = [] := by
  unfold init
  split
  · exact Or.inr ⟨rfl, rfl⟩
  · rename_i e
    split
    · exact Or.inr ⟨rfl, rfl⟩
    · rename_i hvalid
      exact Or.inl ⟨e, rfl, by simpa using hvalid⟩

theorem page_pool_exact {extent : Option JobMemExtent} {pageSize : Nat}
    (fits : ∀ e ∈ extent, e.addr + e.size ≤ sizeMax) (ops : List PageOp) :
    let p := run (init extent pageSize) ops
    (∀ size alignment, 0 < size → validAlignment alignment = true →
      PageExact p size alignment) ∧ ∀ count, 0 < count → PagesExact p count := by
  intro p
  rcases init_cases extent pageSize with ⟨e, rfl, hvalid⟩ | ⟨hextent, hfree⟩
  · have geo : PageGeometry e pageSize := ⟨hvalid, fits e rfl⟩
    have book := run_bookkeeping geo ops _ (init_bookkeeping geo)
    exact ⟨fun _ _ hsize ha => .of_bookkeeping geo book hsize ha,
      fun _ hcount => .of_bookkeeping geo book hcount⟩
  · obtain ⟨hextent, hfree⟩ := run_unset ops _ hextent hfree
    exact ⟨fun size alignment _ _ => .of_unset hextent hfree size alignment,
      fun count _ => .of_unset hextent hfree count⟩

end JobPagePool

namespace JobRangePool

/-- A pool without a mapping stays so, and has no free range. -/
theorem run_unset (ops : List RangeOp) : ∀ p : JobRangePool, p.mmap = none → p.freeRanges = [] →
    (run p ops).mmap = none ∧ (run p ops).freeRanges = [] := by
  induction ops with
  | nil => exact fun p hmmap hfree => ⟨hmmap, hfree⟩
  | cons op ops ih =>
    intro p hmmap hfree
    have hstep : (step p op).mmap = none ∧ (step p op).freeRanges = [] := by
      cases op with
      | alloc size alignment => simp [step, alloc, hmmap, hfree]
      | free ptr => simp [step, free, owns, hmmap, hfree]
      | clear => simp [step, clear, hmmap]
    exact ih _ hstep.1 hstep.2

/-- What is exact about a call of `alloc`. -/
structure RangeExact (p : JobRangePool) (size alignment : Nat) : Prop where
  answer : ExactAlloc p.freeRanges (BlockAt p.base size alignment) (p.base + ·) size alignment p
    (p.alloc size alignment)
  keeps : ∀ k v, p.allocations.lookup k = some v →
    (p.alloc size alignment).2.allocations.lookup k = some v
  words : size ≤ sizeMax → alignment ≤ sizeMax → ∀ r ∈ p.freeRanges,
    (Word.fitRange (.ofNat p.base) (.ofNat size) (.ofNat alignment) (.ofNat r.first)
      (.ofNat r.last)).map UInt64.toNat = fitRange p.base size alignment r

theorem range_pool_exact {mmap : Option JobMmap} (full : ∀ m ∈ mmap, m.Full) (ops : List RangeOp)
    {size alignment : Nat} (hsize : 0 < size)
    (ha : validAlignment alignment = true) :
    RangeExact (run (init mmap) ops) size alignment := by
  cases mmap with
  | none =>
    obtain ⟨hmmap, hfree⟩ := run_unset ops (init none) rfl rfl
    have hcall : (run (init none) ops).alloc size alignment = (nullptr, run (init none) ops) := by
      simp [alloc, hmmap]
    constructor
    · apply ExactAlloc.of_refused hcall
      rw [hfree]
      exact fun r hr => absurd hr List.not_mem_nil
    · intro k v hk
      rwa [hcall]
    · rw [hfree]
      exact fun _ _ r hr => absurd hr List.not_mem_nil
  | some m =>
    have hfull := full m rfl
    have hinit : Bookkeeping (init (some m)) m.mapLength := by
      rw [init_full hfull]
      exact Bookkeeping.fresh hfull.length_pos _ rfl (ofBounds_last (Nat.zero_le _))
    obtain ⟨hm, book⟩ := run_bookkeeping hfull ops (init (some m)) (by rw [init_full hfull]) hinit
    have hbase : (run (init (some m)) ops).base = m.addr := by simp [base, hm]
    obtain ⟨hexact, hkeeps⟩ := book.exactAlloc hm hfull hsize ha
    refine ⟨hexact, hkeeps, ?_⟩
    intro hword halignment r hr
    rw [hbase]
    exact book.word_fitRange hfull hword halignment hr

end JobRangePool

/-- In every state that calls can reach, both pools refuse exactly the requests that no free
range has a place for, answer the least aligned place of the first range that has one, change
nothing when they refuse, and compute no address that leaves the machine word. -/
theorem pools_alloc_exact :
    (∀ mmap : Option JobMmap, (∀ m ∈ mmap, m.Full) → ∀ ops size alignment, 0 < size →
      validAlignment alignment = true →
        ((JobRangePool.init mmap).run ops).RangeExact size alignment) ∧
    ∀ (extent : Option JobMemExtent) (pageSize : Nat),
      (∀ e ∈ extent, e.addr + e.size ≤ sizeMax) → ∀ ops,
        (∀ size alignment, 0 < size → validAlignment alignment = true →
          ((init extent pageSize).run ops).PageExact size alignment) ∧
        ∀ count, 0 < count → ((init extent pageSize).run ops).PagesExact count :=
  ⟨fun _ full ops _ _ hsize ha => JobRangePool.range_pool_exact full ops hsize ha,
    fun _ _ fits ops => page_pool_exact fits ops⟩

/-- A mapping that starts in the middle of a page, and pages behind the first two of a mapping. -/
theorem pools_alloc_exact_sample :
    ((JobRangePool.init (some (JobMmap.ofMap 65600 4096 4096))).run [.alloc 100 64]).RangeExact
      128 256 ∧
    ((init (some samplePages) 4096).run [.alloc 100 16]).PageExact
      5000 16384 ∧
    ((init (some samplePages) 4096).run [.alloc 100 16]).PagesExact 4 := by
  obtain ⟨hrange, hpage⟩ := pools_alloc_exact
  have hfits : ∀ e ∈ some samplePages, e.addr + e.size ≤ sizeMax := by decide
  obtain ⟨halloc, hpages⟩ := hpage (some samplePages) 4096 hfits [.alloc 100 16]
  refine ⟨hrange _ ?_ _ _ _ (by decide) (by decide), halloc _ _ (by decide) (by decide),
    hpages _ (by decide)⟩
  intro m hm
  cases hm
  exact JobMmap.ofMap_full (by decide) (by decide) (by decide)

end JobIo
