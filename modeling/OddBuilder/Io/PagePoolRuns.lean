import OddBuilder.Io.PagePool

/-!
# Runs of the page pool

The extent may start at any offset of its mapping, so the byte range of a span
is carried along with its page indices: a span is in place when both say the
same. Joining and splitting keep spans in place, and the page indices alone
then carry the partition.
-/

namespace JobIo

open Intervals List JobMemSpan

namespace JobPagePool

variable {extent : JobMemExtent} {pageSize : Nat} {p : JobPagePool}

/-- Geometry that the pool accepts, for an extent whose end is still an address. -/
structure PageGeometry (extent : JobMemExtent) (pageSize : Nat) : Prop where
  valid : validPageGeometry extent pageSize = true
  representable : extent.addr + extent.size ≤ sizeMax

namespace PageGeometry

variable {extent : JobMemExtent} {pageSize : Nat}

theorem facts (geo : PageGeometry extent pageSize) :
    0 < pageSize ∧ extent.mapped = true ∧ extent.size % pageSize = 0 ∧
      extent.addr % pageSize = 0 ∧ 0 < extent.size / pageSize := by
  have h := geo.valid
  simp only [validPageGeometry] at h
  split at h
  · cases h
  rename_i hps
  split at h
  · cases h
  rename_i hmap
  split at h
  · cases h
  rename_i hsize
  split at h
  · cases h
  rename_i haddr
  split at h
  · cases h
  rename_i hcount
  simp only [Bool.or_eq_true, beq_iff_eq, not_or, Bool.not_eq_true', Bool.not_eq_false] at hps hmap
  simp only [Decidable.not_not] at hsize haddr
  simp only [beq_iff_eq] at hcount
  exact ⟨Nat.pos_of_ne_zero hps.1, hmap.1, hsize, haddr, Nat.pos_of_ne_zero hcount⟩

theorem pageSize_pos (geo : PageGeometry extent pageSize) : 0 < pageSize := geo.facts.1

theorem mapped (geo : PageGeometry extent pageSize) : extent.mapped = true := geo.facts.2.1

theorem count_pos (geo : PageGeometry extent pageSize) : 0 < extent.size / pageSize :=
  geo.facts.2.2.2.2

/-- The pages fill the extent. -/
theorem count_mul (geo : PageGeometry extent pageSize) :
    extent.size / pageSize * pageSize = extent.size :=
  Nat.div_mul_cancel (Nat.dvd_of_mod_eq_zero geo.facts.2.2.1)

theorem addr_pos (geo : PageGeometry extent pageSize) : 0 < extent.addr := by
  have h := geo.mapped
  simp only [JobMemExtent.mapped, Bool.and_eq_true, bne_iff_ne, nullptr] at h
  simp only [JobMemExtent.addr]
  omega

theorem page_lt (geo : PageGeometry extent pageSize) {index : Nat}
    (h : index < extent.size / pageSize) : index * pageSize + pageSize ≤ extent.size := by
  calc index * pageSize + pageSize = (index + 1) * pageSize := by rw [Nat.add_mul, Nat.one_mul]
    _ ≤ extent.size / pageSize * pageSize := Nat.mul_le_mul_right _ h
    _ = extent.size := geo.count_mul

end PageGeometry

/-- The byte range of the span is the one its page indices ask for. -/
structure InPlace (extent : JobMemExtent) (pageSize : Nat) (s : JobMemSpan) : Prop where
  extentId : s.extentId = extent.id
  pageSize_eq : s.pageSize = pageSize
  range_eq : s.range = JobMemRange.fromSize (extent.range.first + s.firstPageIndex * pageSize)
    (s.pageCount * pageSize)

@[simp] theorem makeSpan_firstPageIndex (extent : JobMemExtent) (pageSize id first count : Nat) :
    (makeSpan extent pageSize id first count).firstPageIndex = first := rfl

@[simp] theorem makeSpan_pageCount (extent : JobMemExtent) (pageSize id first count : Nat) :
    (makeSpan extent pageSize id first count).pageCount = count := rfl

theorem makeSpan_inPlace (extent : JobMemExtent) (pageSize id first count : Nat) :
    InPlace extent pageSize (makeSpan extent pageSize id first count) := ⟨rfl, rfl, rfl⟩

/-- On spans in place, page adjacency decides the whole test. -/
theorem adjacent_iff {a b : JobMemSpan} (ha : InPlace extent pageSize a)
    (hb : InPlace extent pageSize b) :
    a.adjacent b = true ↔ a.endPageIndex = b.firstPageIndex ∨ b.endPageIndex = a.firstPageIndex := by
  have same : (!a.sameExtent b || a.pageSize != b.pageSize) = false := by
    simp [sameExtent, ha.extentId, hb.extentId, ha.pageSize_eq, hb.pageSize_eq]
  simp only [adjacent, same, Bool.false_eq_true, if_false, Bool.and_eq_true,
    Bool.or_eq_true, beq_iff_eq, and_iff_left_iff_imp]
  intro h
  simp only [JobMemRange.adjacent, ha.range_eq, hb.range_eq, JobMemRange.fromSize_last, Bool.or_eq_true, beq_iff_eq, Nat.add_assoc, ← Nat.add_mul]
  rcases h with h | h
  · refine Or.inl ?_
    rw [← h]
    rfl
  · refine Or.inr ?_
    rw [← h]
    rfl

theorem joins_joinSpans (extent : JobMemExtent) (pageSize : Nat) :
    Joins (InPlace extent pageSize) (joinSpans extent pageSize) where
  touching := by
    intro nextSpanId a b ga gb _ _ touch
    have hadj : a.adjacent b = true := (adjacent_iff ga gb).mpr (Or.inl touch)
    refine ⟨makeSpan extent pageSize nextSpanId a.firstPageIndex (a.pageCount + b.pageCount),
      nextSpanId + 1, by rw [joinSpans, if_pos hadj], makeSpan_inPlace _ _ _ _ _, rfl, ?_⟩
    simp only [hi_eq, lo_eq, makeSpan_firstPageIndex, makeSpan_pageCount] at touch ⊢
    omega
  gap := by
    intro nextSpanId a b ga gb na nb gap
    have hadj : ¬ a.adjacent b = true := by
      rw [adjacent_iff ga gb]
      simp only [endPageIndex, hi_eq, lo_eq] at *
      omega
    rw [joinSpans, if_neg hadj]

theorem insertFreeSpan_spec (nextSpanId : Nat) {spans : List JobMemSpan} {span : JobMemSpan}
    (place : ∀ s ∈ spans, InPlace extent pageSize s) (own : InPlace extent pageSize span)
    (sep : Separated spans) (ne : 0 < span.pageCount)
    (once : ∀ x, coverage (spans ++ [span]) x ≤ 1) : let result := (insertFreeSpan extent pageSize nextSpanId spans span).1
    (∀ s ∈ result, InPlace extent pageSize s) ∧ Separated result ∧
      ∀ x, coverage result x = coverage (spans ++ [span]) x := by
  have good : ∀ s ∈ spans ++ [span], InPlace extent pageSize s := by
    intro s hs
    rcases mem_append.mp hs with hs | hs
    · exact place s hs
    · rw [mem_singleton.mp hs]
      exact own
  have nonempty : ∀ s ∈ spans ++ [span], lo s < hi s := by
    intro s hs
    rcases mem_append.mp hs with hs | hs
    · exact sep.nonempty s hs
    · rw [mem_singleton.mp hs]
      simp only [lo_eq, hi_eq]
      omega
  simp only [insertFreeSpan, coalesceSpans]
  split
  · rename_i short
    have hnil : spans = [] := by
      simp only [length_append, length_singleton] at short
      exact eq_nil_of_length_eq_zero (by omega)
    subst hnil
    exact ⟨good, ⟨nonempty, pairwise_singleton _ _⟩, fun x => rfl⟩
  · exact compact_sorted_spec (joins_joinSpans extent pageSize) nextSpanId (spans ++ [span]) good
      nonempty once

/-- What holds of the pool between two calls. -/
structure PageBookkeeping (extent : JobMemExtent) (pageSize : Nat) (p : JobPagePool) : Prop where
  extent_eq : p.extent = some extent
  pageSize_eq : p.pageSize = pageSize
  pages_eq : p.pages = makePages extent pageSize (extent.size / pageSize)
  inPlace : ∀ s ∈ p.freeSpans, InPlace extent pageSize s
  separated : Separated p.freeSpans
  blocks : ∀ e ∈ p.allocations.entries, 0 < e.2.pageCount ∧ e.2.firstPageIndex = e.1
  partition : Partition (extent.size / pageSize) p.freeSpans p.allocations.entries
  pagesTotal : p.allocatedPages = total p.allocations.entries
  bytesTotal : p.allocatedBytes = total p.allocations.entries * pageSize

theorem fitSpan_some {base pageCount alignment first : Nat} {span : JobMemSpan}
    (h : fitSpan base pageSize pageCount alignment span = some first) :
    span.firstPageIndex ≤ first ∧ first + pageCount ≤ span.endPageIndex := by
  have hfits : ∀ candidate, ¬ candidate < span.firstPageIndex → ¬ candidate ≥ span.endPageIndex →
      ¬ pageCount > span.endPageIndex - candidate →
      span.firstPageIndex ≤ candidate ∧ candidate + pageCount ≤ span.endPageIndex := by omega
  simp only [fitSpan, Option.ite_none_left_eq_some, Option.some.injEq] at h
  obtain ⟨-, -, -, -, -, -, -, low, high, room, rfl⟩ := h
  exact hfits _ low high room

/-- All four ways of splitting put the leftover spans, under new ids, where the span was. -/
theorem splitSpan_eq (extent : JobMemExtent) (pageSize nextSpanId : Nat)
    (before after : List JobMemSpan) (original : JobMemSpan) (first count : Nat) :
    ∃ idFront idBack, (splitSpan extent pageSize nextSpanId (before ++ original :: after)
      before.length first count).1 =
        before ++ (carve original first (first + count)
          (makeSpan extent pageSize idFront original.firstPageIndex
            (first - original.firstPageIndex))
          (makeSpan extent pageSize idBack (first + count)
            (original.endPageIndex - (first + count))) ++ after) := by
  simp only [splitSpan, getElem?_cell, carve, endPageIndex]
  by_cases hp : original.firstPageIndex < first
  · by_cases hs : first + count < original.firstPageIndex + original.pageCount
    · exact ⟨nextSpanId + 1, nextSpanId, by simp [hp, hs, insertIdx_cell]⟩
    · exact ⟨nextSpanId, nextSpanId, by simp [hp, hs]⟩
  · by_cases hs : first + count < original.firstPageIndex + original.pageCount
    · exact ⟨nextSpanId, nextSpanId, by simp [hp, hs]⟩
    · exact ⟨nextSpanId, nextSpanId, by simp [hp, hs, eraseIdx_cell]⟩

theorem split_cut (extent : JobMemExtent) (pageSize idFront idBack : Nat) {original : JobMemSpan}
    {first count : Nat} (hc : 0 < count) (hle : original.firstPageIndex ≤ first)
    (hfit : first + count ≤ original.endPageIndex) :
    Cut original first (first + count)
      (makeSpan extent pageSize idFront original.firstPageIndex (first - original.firstPageIndex))
      (makeSpan extent pageSize idBack (first + count)
        (original.endPageIndex - (first + count))) where
  start := hle
  nonempty := by omega
  stop := hfit
  front_bounds := by
    intro h
    refine ⟨rfl, ?_⟩
    simp only [hi_eq, makeSpan_firstPageIndex, makeSpan_pageCount] at *
    omega
  back_bounds := by
    intro h
    refine ⟨rfl, ?_⟩
    simp only [hi_eq, endPageIndex, makeSpan_firstPageIndex, makeSpan_pageCount] at *
    omega

/-- State after a block was recorded, with the free spans and next span id that are left. -/
def taken (p : JobPagePool) (spans : List JobMemSpan) (nextSpanId first count requestedSize : Nat) :
    JobPagePool :=
  { p with
    allocations := p.allocations.insert first ⟨first, count, requestedSize⟩
    freeSpans := spans
    nextSpanId := nextSpanId
    allocatedPages := p.allocatedPages + count
    allocatedBytes := p.allocatedBytes + count * p.pageSize }

/-- What a successful request of `count` pages does: the block `[first, first + count)` is cut
out of one free span and recorded. -/
def Takes (extent : JobMemExtent) (p : JobPagePool) (count : Nat) (result : Nat × JobPagePool) :
    Prop :=
  ∃ before r after idFront idBack nextSpanId first requestedSize,
    p.freeSpans = before ++ r :: after ∧ r.firstPageIndex ≤ first ∧
    first + count ≤ r.endPageIndex ∧ first ∉ p.allocations ∧
    let q := p.taken (before ++ (carve r first (first + count)
      (makeSpan extent p.pageSize idFront r.firstPageIndex (first - r.firstPageIndex))
      (makeSpan extent p.pageSize idBack (first + count) (r.endPageIndex - (first + count))) ++
        after)) nextSpanId first count requestedSize
    result = (q.ptrAtPage first, q)

theorem takePages_cases (p : JobPagePool) (extent : JobMemExtent) (count alignment requested : Nat) :
    p.takePages extent count alignment requested = (nullptr, p) ∨
      Takes extent p count (p.takePages extent count alignment requested) := by
  simp only [takePages]
  split
  · exact Or.inl rfl
  rename_i spanIndex first found
  split
  · exact Or.inl rfl
  rename_i fresh
  simp only [findFreeSpan] at found
  split at found
  · cases found
  split at found
  · cases found
  split at found
  · cases found
  obtain ⟨before, r, after, hfree, hidx, hfit⟩ := firstFit_some found
  obtain ⟨hlow, hhigh⟩ := fitSpan_some hfit
  obtain ⟨idFront, idBack, hsplit⟩ :=
    splitSpan_eq extent p.pageSize p.nextSpanId before after r first count
  rw [hidx, Nat.zero_add, hfree, hsplit]
  exact Or.inr ⟨before, r, after, idFront, idBack, _, first, requested, hfree, hlow, hhigh, fresh,
    rfl⟩

/-- Both entry points answer null and change nothing, or take at least one page. -/
theorem alloc_cases (hext : p.extent = some extent) (size alignment : Nat) :
    p.alloc size alignment = (nullptr, p) ∨
      ∃ count, 0 < count ∧ Takes extent p count (p.alloc size alignment) := by
  simp only [alloc, hext]
  split
  · exact Or.inl rfl
  split
  · exact Or.inl rfl
  split
  · exact Or.inl rfl
  rename_i hcount
  rcases takePages_cases p extent (pagesForSize size p.pageSize) alignment size
    with h | h
  · exact Or.inl h
  · refine Or.inr ⟨_, Nat.pos_of_ne_zero ?_, h⟩
    simpa using hcount

theorem allocPages_cases (hext : p.extent = some extent) (count : Nat) :
    p.allocPages count = (nullptr, p) ∨ (0 < count ∧ Takes extent p count (p.allocPages count)) := by
  simp only [allocPages, hext]
  split
  · exact Or.inl rfl
  rename_i hcount
  split
  · exact Or.inl rfl
  split
  · exact Or.inl rfl
  rcases takePages_cases p extent count p.pageSize (count * p.pageSize) with h | h
  · exact Or.inl h
  · refine Or.inr ⟨Nat.pos_of_ne_zero ?_, h⟩
    simpa using hcount

/-- State after the live block that starts at page `index` was given back. -/
def returned (p : JobPagePool) (extent : JobMemExtent) (index : Nat) (allocation : PageAllocation) :
    JobPagePool :=
  let span := makeSpan extent p.pageSize p.nextSpanId index allocation.pageCount
  let spans := insertFreeSpan extent p.pageSize (p.nextSpanId + 1) p.freeSpans span
  { p with
    freeSpans := spans.1
    nextSpanId := spans.2
    allocations := p.allocations.erase index
    allocatedPages := p.allocatedPages - allocation.pageCount
    allocatedBytes := p.allocatedBytes - allocation.pageCount * p.pageSize }

/-- A call of `free` fails and changes nothing, or gives back the block whose first page starts
at the address. -/
theorem free_cases (hext : p.extent = some extent) (ptr : Nat) :
    p.free ptr = (false, p) ∨ ∃ index allocation, p.allocations.lookup index = some allocation ∧
      ptr = extent.addr + index * p.pageSize ∧
      p.free ptr = (true, p.returned extent index allocation) := by
  simp only [free, hext]
  split
  · exact Or.inl rfl
  split
  · exact Or.inl rfl
  rename_i howns
  split
  · exact Or.inl rfl
  rename_i hoff
  split
  · exact Or.inl rfl
  rename_i hmod
  split
  · exact Or.inl rfl
  split
  · exact Or.inl rfl
  rename_i allocation found
  simp only [Bool.or_eq_true, Bool.not_eq_true', not_or, Bool.not_eq_false] at howns
  obtain ⟨owned, hps⟩ := howns
  have hoffset : p.offsetOf ptr = ptr - extent.addr := by
    simp [offsetOf, hext, owned, JobMemExtent.offsetOf]
  have hindex : p.pageIndexOf ptr = (ptr - extent.addr) / p.pageSize := by
    rw [hoffset] at hoff
    simp [pageIndexOf, hps, hoffset, hoff]
  have hbase : extent.addr ≤ ptr := by
    simp only [owns, hext, Option.any_some, Bool.and_eq_true, JobMemExtent.containsPtr] at owned
    have hc := owned.2.2
    split at hc
    · cases hc
    split at hc
    · cases hc
    simp only [Bool.and_eq_true, decide_eq_true_eq] at hc
    exact hc.1
  refine Or.inr ⟨p.pageIndexOf ptr, allocation, found, ?_, by simp [returned, hext]⟩
  rw [Decidable.not_not, hoffset] at hmod
  rw [hindex, Nat.div_mul_cancel (Nat.dvd_of_mod_eq_zero hmod)]
  omega

section Steps

variable {extent : JobMemExtent} {pageSize : Nat} {p : JobPagePool}

theorem PageBookkeeping.live_nonempty (book : PageBookkeeping extent pageSize p) :
    ∀ e ∈ p.allocations.entries, lo e < hi e := by
  intro e he
  have := (book.blocks e he).1
  simp only [lo, hi]
  omega

theorem PageBookkeeping.live_bound (book : PageBookkeeping extent pageSize p) {e : PageBlock}
    (he : e ∈ p.allocations.entries) : e.1 + e.2.pageCount ≤ extent.size / pageSize :=
  book.partition.symm.free_hi he (book.live_nonempty e he)

theorem hi_sub_lo (e : PageBlock) : hi e - lo e = e.2.pageCount := Nat.add_sub_cancel_left _ _

/-- Taking pages keeps the bookkeeping. -/
theorem PageBookkeeping.takes (book : PageBookkeeping extent pageSize p) {count : Nat}
    (hc : 0 < count) {result : Nat × JobPagePool} (h : Takes extent p count result) :
    PageBookkeeping extent pageSize result.2 := by
  obtain ⟨before, r, after, idFront, idBack, nextSpanId, first, requested, hfree, hlow, hhigh,
    fresh, rfl⟩ := h
  have cut := split_cut extent p.pageSize idFront idBack hc hlow hhigh
  have sep := book.separated
  have part := book.partition
  rw [hfree] at sep part
  have hentries : (p.allocations.insert first ⟨first, count, requested⟩).entries =
      ⟨first, ⟨first, count, requested⟩⟩ :: p.allocations.entries :=
    AList.entries_insert_of_notMem fresh
  refine ⟨book.extent_eq, book.pageSize_eq, book.pages_eq, ?_,
    sep.splice cut.separated cut.within, ?_, ?_, ?_, ?_⟩
  · intro s hs
    have old : ∀ s ∈ before ++ r :: after, InPlace extent pageSize s := by
      rw [← hfree]
      exact book.inPlace
    rcases mem_append.mp hs with hs | hs
    · exact old s (by simp [hs])
    rcases mem_append.mp hs with hs | hs
    · rw [book.pageSize_eq] at hs
      rcases mem_append.mp hs with hs | hs
      · split at hs
        · rw [mem_singleton.mp hs]
          exact makeSpan_inPlace _ _ _ _ _
        · cases hs
      · split at hs
        · rw [mem_singleton.mp hs]
          exact makeSpan_inPlace _ _ _ _ _
        · cases hs
    · exact old s (by simp [hs])
  · intro e he
    simp only [taken, hentries] at he
    rcases mem_cons.mp he with rfl | he
    · exact ⟨hc, rfl⟩
    · exact book.blocks e he
  · simp only [taken, hentries]
    exact Partition.take (e := (⟨first, ⟨first, count, requested⟩⟩ : PageBlock)) part cut
  · simp only [taken, hentries, total_cons, hi_sub_lo]
    rw [book.pagesTotal, Nat.add_comm]
  · simp only [taken, hentries, total_cons, hi_sub_lo]
    rw [book.bytesTotal, book.pageSize_eq, ← Nat.add_mul, Nat.add_comm]

theorem PageBookkeeping.alloc (book : PageBookkeeping extent pageSize p) (size alignment : Nat) :
    PageBookkeeping extent pageSize (p.alloc size alignment).2 := by
  rcases alloc_cases book.extent_eq size alignment with h | ⟨count, hc, h⟩
  · rw [h]
    exact book
  · exact book.takes hc h

theorem PageBookkeeping.allocPages (book : PageBookkeeping extent pageSize p) (count : Nat) :
    PageBookkeeping extent pageSize (p.allocPages count).2 := by
  rcases allocPages_cases book.extent_eq count with h | ⟨hc, h⟩
  · rw [h]
    exact book
  · exact book.takes hc h

theorem PageBookkeeping.returned (book : PageBookkeeping extent pageSize p) {index : Nat}
    {allocation : PageAllocation} (found : p.allocations.lookup index = some allocation) :
    PageBookkeeping extent pageSize (p.returned extent index allocation) := by
  have perm := entries_perm_erase found
  have mem : (⟨index, allocation⟩ : PageBlock) ∈ p.allocations.entries :=
    AList.mem_lookup_iff.mp found
  have hpos : 0 < allocation.pageCount := (book.blocks _ mem).1
  let span := makeSpan extent p.pageSize p.nextSpanId index allocation.pageCount
  have grown : ∀ x, coverage (p.freeSpans ++ [span]) x =
      coverage p.freeSpans x + (if Covers (⟨index, allocation⟩ : PageBlock) x then 1 else 0) := by
    intro x
    rw [coverage_append, coverage_cons]
    rfl
  have once : ∀ x, coverage (p.freeSpans ++ [span]) x ≤ 1 := by
    intro x
    have h := book.partition.le_one x
    rw [coverage_perm perm x, coverage_cons] at h
    rw [grown x]
    omega
  have own : InPlace extent pageSize span := by
    simp only [span, book.pageSize_eq]
    exact makeSpan_inPlace _ _ _ _ _
  have spec := insertFreeSpan_spec (p.nextSpanId + 1) book.inPlace own book.separated hpos once
  have htotal : total p.allocations.entries =
      allocation.pageCount + total (p.allocations.erase index).entries := by
    rw [total_perm perm, total_cons, hi_sub_lo]
  rw [← book.pageSize_eq] at spec
  refine ⟨book.extent_eq, book.pageSize_eq, book.pages_eq, ?_, spec.2.1, ?_, ?_, ?_, ?_⟩
  · rw [← book.pageSize_eq]
    exact spec.1
  · intro e he
    exact book.blocks e (perm.mem_iff.mpr (mem_cons_of_mem _ he))
  · exact book.partition.give perm (fun x => (spec.2.2 x).trans (grown x))
  · change p.allocatedPages - allocation.pageCount = total (p.allocations.erase index).entries
    have := book.pagesTotal
    omega
  · change p.allocatedBytes - allocation.pageCount * p.pageSize =
      total (p.allocations.erase index).entries * pageSize
    rw [book.bytesTotal, htotal, Nat.add_mul, book.pageSize_eq, Nat.add_sub_cancel_left]

theorem PageBookkeeping.free (book : PageBookkeeping extent pageSize p) (ptr : Nat) :
    PageBookkeeping extent pageSize (p.free ptr).2 := by
  rcases free_cases book.extent_eq ptr with h | ⟨index, allocation, found, _, h⟩
  · rw [h]
    exact book
  · rw [h]
    exact book.returned found

/-- A pool with one span over all its pages and no live block. -/
theorem PageBookkeeping.whole (geo : PageGeometry extent pageSize) (id nextSpanId : Nat) :
    PageBookkeeping extent pageSize ⟨some extent, pageSize,
      makePages extent pageSize (extent.size / pageSize),
      [makeSpan extent pageSize id 0 (extent.size / pageSize)], ∅, 0, 0, nextSpanId⟩ := by
  refine ⟨rfl, rfl, rfl, ?_, ⟨?_, pairwise_singleton _ _⟩, by simp, ?_, rfl, by simp⟩
  · intro s hs
    rw [mem_singleton.mp hs]
    exact makeSpan_inPlace _ _ _ _ _
  · intro s hs
    rw [mem_singleton.mp hs]
    have := geo.count_pos
    simp only [lo_eq, hi_eq, makeSpan_pageCount]
    omega
  · intro x
    have hx : Covers (makeSpan extent pageSize id 0 (extent.size / pageSize)) x ↔
        x < extent.size / pageSize := by
      simp [Covers]
    rw [coverage_cons, if_congr hx rfl rfl]
    rfl

theorem init_geometry (geo : PageGeometry extent pageSize) :
    init (some extent) pageSize = ⟨some extent, pageSize,
      makePages extent pageSize (extent.size / pageSize),
      [makeSpan extent pageSize 0 0 (extent.size / pageSize)], ∅, 0, 0, 1⟩ := by
  simp [init, geo.valid]

theorem PageBookkeeping.pageCount (book : PageBookkeeping extent pageSize p) :
    p.pageCount = extent.size / pageSize := by
  simp [JobPagePool.pageCount, book.pages_eq, makePages]

theorem PageBookkeeping.clear (geo : PageGeometry extent pageSize)
    (book : PageBookkeeping extent pageSize p) : PageBookkeeping extent pageSize p.clear := by
  have hps := Nat.ne_of_gt geo.pageSize_pos
  have hcount := Nat.ne_of_gt geo.count_pos
  have hlen : (makePages extent pageSize (extent.size / pageSize)).length =
      extent.size / pageSize := by simp [makePages]
  have hpages : makePages extent pageSize (extent.size / pageSize) ≠ [] := by
    intro hnil
    rw [hnil] at hlen
    exact hcount hlen.symm
  have h : p.clear = ⟨some extent, pageSize, makePages extent pageSize (extent.size / pageSize),
      [makeSpan extent pageSize p.nextSpanId 0 (extent.size / pageSize)], ∅, 0, 0,
      p.nextSpanId + 1⟩ := by
    simp [JobPagePool.clear, book.extent_eq, geo.mapped, book.pageSize_eq, hps, geo.valid, hpages,
      hlen, book.pages_eq]
  rw [h]
  exact PageBookkeeping.whole geo _ _

end Steps

/-- A call on the pool. -/
inductive PageOp where
  | alloc (size alignment : Nat)
  | allocPages (pageCount : Nat)
  | free (ptr : Nat)
  | clear

def step (p : JobPagePool) : PageOp → JobPagePool
  | .alloc size alignment => (p.alloc size alignment).2
  | .allocPages pageCount => (p.allocPages pageCount).2
  | .free ptr => (p.free ptr).2
  | .clear => p.clear

def run (p : JobPagePool) (ops : List PageOp) : JobPagePool := ops.foldl step p

section Runs

variable {extent : JobMemExtent} {pageSize : Nat}
variable {p : JobPagePool}

theorem run_bookkeeping (geo : PageGeometry extent pageSize) (ops : List PageOp) :
    ∀ p : JobPagePool, PageBookkeeping extent pageSize p →
      PageBookkeeping extent pageSize (run p ops) := by
  induction ops with
  | nil => exact fun p book => book
  | cons op ops ih =>
    intro p book
    apply ih
    cases op with
    | alloc size alignment => exact book.alloc size alignment
    | allocPages pageCount => exact book.allocPages pageCount
    | free ptr => exact book.free ptr
    | clear => exact book.clear geo

theorem init_bookkeeping (geo : PageGeometry extent pageSize) :
    PageBookkeeping extent pageSize (init (some extent) pageSize) := by
  rw [init_geometry geo]
  exact PageBookkeeping.whole geo _ _

/-- The first byte of any page of the extent is an owned address at its page offset. -/
theorem owns_page (geo : PageGeometry extent pageSize) (book : PageBookkeeping extent pageSize p)
    {index : Nat} (h : index < extent.size / pageSize) :
    p.owns (extent.addr + index * pageSize) = true ∧
      p.offsetOf (extent.addr + index * pageSize) = index * pageSize := by
  have hroom := geo.page_lt h
  have hps := geo.pageSize_pos
  have hrep := geo.representable
  have hne : extent.addr + index * pageSize ≠ nullptr := by
    have := geo.addr_pos
    simp only [nullptr]
    omega
  have hin : extent.containsPtr (extent.addr + index * pageSize) = true := by
    simp only [JobMemExtent.containsPtr]
    rw [if_neg (by simp [hne, geo.mapped]), if_neg (by omega)]
    simp only [Bool.and_eq_true, decide_eq_true_eq]
    omega
  have owned : p.owns (extent.addr + index * pageSize) = true := by
    simp [owns, hne, book.extent_eq, geo.mapped, hin]
  refine ⟨owned, ?_⟩
  simp [offsetOf, book.extent_eq, owned, JobMemExtent.offsetOf]

/-- The address of a live block can always be freed. -/
theorem free_live (geo : PageGeometry extent pageSize) (book : PageBookkeeping extent pageSize p)
    {e : PageBlock} (he : e ∈ p.allocations.entries) :
    p.free (extent.addr + e.1 * pageSize) = (true, p.returned extent e.1 e.2) := by
  have hps := Nat.ne_of_gt geo.pageSize_pos
  have hlt : e.1 < extent.size / pageSize := by
    have := book.live_bound he
    have := (book.blocks e he).1
    omega
  obtain ⟨owned, hoff⟩ := owns_page geo book hlt
  have hroom := geo.page_lt hlt
  have hrep := geo.representable
  have hpos := geo.addr_pos
  have hps' := geo.pageSize_pos
  have hnull : ¬ extent.addr + e.1 * pageSize = nullptr := by simp only [nullptr]; omega
  have hbig : ¬ e.1 * pageSize = sizeMax := by omega
  have hle : e.1 ≤ e.1 * pageSize := Nat.le_mul_of_pos_right _ hps'
  have hindex : p.pageIndexOf (extent.addr + e.1 * pageSize) = e.1 := by
    simp [pageIndexOf, book.pageSize_eq, hps, hoff, hbig]
  have hinvalid : ¬ e.1 = kInvalidIndex := by simp only [kInvalidIndex]; omega
  have found : p.allocations.lookup (p.pageIndexOf (extent.addr + e.1 * pageSize)) = some e.2 := by
    rw [hindex]
    exact AList.mem_lookup_iff.mpr he
  simp only [free, book.extent_eq, owned, hoff, found, hindex, returned, book.pageSize_eq]
  simp [hnull, hps, hbig, hinvalid]

/-- Freeing all live blocks, in any order, leaves none. -/
theorem free_all (geo : PageGeometry extent pageSize) (order : List Nat) :
    ∀ p : JobPagePool, PageBookkeeping extent pageSize p →
      order.Perm (p.allocations.entries.map fun e => extent.addr + e.1 * pageSize) →
      (run p (order.map PageOp.free)).allocations = ∅ := by
  induction order with
  | nil =>
    intro p _ perm
    have h : p.allocations.entries = [] := by simpa using perm.symm
    exact AList.ext h
  | cons ptr order ih =>
    intro p book perm
    have hmem : ptr ∈ p.allocations.entries.map (fun e => extent.addr + e.1 * pageSize) :=
      perm.mem_iff.mp mem_cons_self
    obtain ⟨e, he, rfl⟩ := mem_map.mp hmem
    have hfree := free_live geo book he
    have found : p.allocations.lookup e.1 = some e.2 := AList.mem_lookup_iff.mpr he
    have rest : order.Perm
        ((p.allocations.erase e.1).entries.map fun e => extent.addr + e.1 * pageSize) := by
      have h := perm.trans
        ((entries_perm_erase found).map fun e => extent.addr + e.1 * pageSize)
      exact List.Perm.cons_inv h
    have h := ih (p.returned extent e.1 e.2) (book.returned found) rest
    simpa [run, step, hfree] using h

theorem total_blocks (l : List PageBlock) : total l = (l.map fun e => e.2.pageCount).sum := by
  induction l with
  | nil => rfl
  | cons e l ih => rw [total_cons, ih, hi_sub_lo, map_cons, sum_cons]

theorem total_spans (l : List JobMemSpan) : total l = (l.map JobMemSpan.pageCount).sum := by
  induction l with
  | nil => rfl
  | cons s l ih =>
    have hs : hi s - lo s = s.pageCount := Nat.add_sub_cancel_left _ _
    rw [total_cons, ih, hs, map_cons, sum_cons]

theorem PageBookkeeping.sorted (book : PageBookkeeping extent pageSize p) :
    p.freeSpans.Pairwise (fun a b => a.firstPageIndex < b.firstPageIndex) := by
  refine book.separated.apart.imp ?_
  intro a b h
  simp only [lo_eq, hi_eq] at h
  omega

theorem PageBookkeeping.apart (book : PageBookkeeping extent pageSize p) :
    p.freeSpans.Pairwise
      (fun a b => a.endPageIndex < b.firstPageIndex ∧ a.adjacent b = false) := by
  refine book.separated.apart.imp_of_mem ?_
  intro a b ha hb h
  refine ⟨h, Bool.eq_false_iff.mpr ?_⟩
  rw [ne_eq, adjacent_iff (book.inPlace a ha) (book.inPlace b hb)]
  simp only [lo_eq, hi_eq, endPageIndex] at *
  omega

/-- With valid geometry, after any sequence of calls: the free spans are sorted, disjoint, never
adjacent and in place; together with the live blocks they partition the page indices; the page
and byte counts agree; and freeing the live blocks in any order leaves one span over all pages. -/
theorem page_pool_partition (geo : PageGeometry extent pageSize) (ops : List PageOp) :
    let p := run (init (some extent) pageSize) ops
    p.freeSpans.Pairwise (fun a b => a.firstPageIndex < b.firstPageIndex) ∧
    p.freeSpans.Pairwise (fun a b => a.endPageIndex < b.firstPageIndex ∧ a.adjacent b = false) ∧
    (∀ s ∈ p.freeSpans, 0 < s.pageCount ∧
      s.range.first = extent.range.first + s.firstPageIndex * pageSize ∧
      s.range.size = s.pageCount * pageSize) ∧
    p.pageCount = extent.size / pageSize ∧
    Partition p.pageCount p.freeSpans p.allocations.entries ∧
    p.allocatedPages = (p.allocations.entries.map fun e => e.2.pageCount).sum ∧
    p.allocatedBytes = (p.allocations.entries.map fun e => e.2.pageCount * pageSize).sum ∧
    p.allocatedPages + p.availablePages = p.pageCount ∧
    ∀ order : List Nat,
      order.Perm (p.allocations.entries.map fun e => extent.addr + e.1 * pageSize) →
      (run p (order.map PageOp.free)).allocations = ∅ ∧
      ∃ s, (run p (order.map PageOp.free)).freeSpans = [s] ∧ s.firstPageIndex = 0 ∧
        s.pageCount = p.pageCount := by
  intro p
  have book : PageBookkeeping extent pageSize p :=
    run_bookkeeping geo ops _ (init_bookkeeping geo)
  refine ⟨book.sorted, book.apart, ?_, book.pageCount, ?_, ?_, ?_, ?_, ?_⟩
  · intro s hs
    have place := book.inPlace s hs
    have ne := book.separated.nonempty s hs
    simp only [lo_eq, hi_eq] at ne
    refine ⟨by omega, by rw [place.range_eq, JobMemRange.fromSize_first], ?_⟩
    rw [s.range_size, place.pageSize_eq]
  · rw [book.pageCount]
    exact book.partition
  · rw [← total_blocks]
    exact book.pagesTotal
  · rw [sum_map_mul_right, ← total_blocks]
    exact book.bytesTotal
  · have hsum := book.partition.total_add book.separated.nonempty book.live_nonempty
    rw [book.pageCount, availablePages, ← total_spans, book.pagesTotal, Nat.add_comm]
    exact hsum
  · intro order perm
    have hnone := free_all geo order p book perm
    have last := run_bookkeeping geo (order.map PageOp.free) p book
    refine ⟨hnone, ?_⟩
    have part := last.partition
    rw [hnone] at part
    obtain ⟨s, hs, hlo, hhi⟩ := last.separated.eq_whole geo.count_pos part
    refine ⟨s, hs, hlo, ?_⟩
    rw [book.pageCount]
    simp only [lo_eq, hi_eq] at hlo hhi
    omega

end Runs

/-- Four pages at offset 8192 of a mapping of six. -/
def samplePages : JobMemExtent where
  id := 1
  mmap := JobMmap.ofMap 65536 24576 4096
  range := JobMemRange.ofBounds 8192 24576

theorem samplePages_geometry : PageGeometry samplePages 4096 := ⟨by decide, by decide⟩

/-- One page is taken, then two pages at a two-page boundary; giving the first back leaves the
alignment gap joined to it. -/
theorem page_pool_partition_sample :
    let p := run (init (some samplePages) 4096) [.alloc 100 16, .alloc 8192 8192, .free 73728]
    p.freeSpans.map (fun s => (s.firstPageIndex, s.pageCount)) = [(0, 2)] ∧
      p.allocatedPages + p.availablePages = p.pageCount :=
  ⟨by decide, (page_pool_partition samplePages_geometry _).2.2.2.2.2.2.2.1⟩

end JobPagePool

end JobIo
