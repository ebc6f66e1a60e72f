import OddBuilder.Io.RangePool

/-!
# Runs of the range pool

One inversion lemma for each operation, the invariant step by step, and what
follows for every sequence of calls.
-/

namespace JobIo

open Intervals List JobMemRange

/-- Erasing a bound key removes exactly that entry. -/
theorem entries_perm_erase {ν : Type} {s : AList (fun _ : Nat => ν)} {k : Nat} {v : ν}
    (h : s.lookup k = some v) : s.entries.Perm (⟨k, v⟩ :: (s.erase k).entries) := by
  have hk : k ∈ s := AList.lookup_isSome.mp (by rw [h]; rfl)
  obtain ⟨w, l₁, l₂, fresh, split, erased⟩ := exists_of_kerase (AList.mem_keys.mp hk)
  have hw : w = v := by
    have mem : (⟨k, w⟩ : (_ : Nat) × ν) ∈ s.entries := by rw [split]; simp
    have := AList.mem_lookup_iff.mpr mem
    rw [h] at this
    exact (Option.some.inj this).symm
  have hes : (s.erase k).entries = l₁ ++ l₂ := erased
  rw [hes, split, hw]
  exact perm_middle

namespace JobRangePool

variable {p : JobRangePool} {n : Nat} {m : JobMmap}

/-- State after a block was cut out of the free range `r`. -/
def taken (p : JobRangePool) (before : List JobMemRange) (r : JobMemRange)
    (after : List JobMemRange) (offset size : Nat) : JobRangePool :=
  { p with
    allocations := p.allocations.insert offset size
    freeRanges := before ++ (carve r offset (offset + size) (JobMemRange.ofBounds r.first offset)
      (JobMemRange.ofBounds (offset + size) r.last) ++ after)
    allocatedBytes := p.allocatedBytes + size }

/-- A call of `alloc` answers null and changes nothing, or cuts its block out of the first
range in which it fits. -/
theorem alloc_cases (p : JobRangePool) (size alignment : Nat) :
    p.alloc size alignment = (nullptr, p) ∨
      ∃ m before r after offset, p.mmap = some m ∧ m.isValid = true ∧ 0 < size ∧
        p.freeRanges = before ++ r :: after ∧ fitRange m.addr size alignment r = some offset ∧
        offset ∉ p.allocations ∧
        p.alloc size alignment = ((p.taken before r after offset size).ptrAt offset,
          p.taken before r after offset size) := by
  simp only [alloc]
  split
  · exact Or.inl rfl
  rename_i args
  split
  · exact Or.inl rfl
  split
  · exact Or.inl rfl
  rename_i rangeIndex offset found
  split
  · exact Or.inl rfl
  rename_i fresh
  simp only [findFreeRange] at found
  split at found
  · cases found
  rename_i m hm
  split at found
  · cases found
  rename_i valid
  obtain ⟨before, r, after, hfree, hidx, hfit⟩ := firstFit_some found
  have hpos : 0 < size := by
    simp only [Bool.or_eq_true, beq_iff_eq] at args
    omega
  have hvalid : m.isValid = true := by
    simp only [Bool.or_eq_true, not_or, Bool.not_eq_true', Bool.not_eq_false] at valid
    exact valid.1
  have hsplit : splitRange p.freeRanges rangeIndex offset size =
      (p.taken before r after offset size).freeRanges := by
    rw [hfree, hidx, Nat.zero_add, splitRange_eq]
    rfl
  refine Or.inr ⟨m, before, r, after, offset, hm, hvalid, hpos, hfree, hfit, fresh, ?_⟩
  rw [hsplit]
  rfl

/-- State after the live block at `offset` was given back. -/
def returned (p : JobRangePool) (offset size : Nat) : JobRangePool :=
  { p with
    freeRanges := insertFreeRange p.freeRanges (JobMemRange.fromSize offset size)
    allocations := p.allocations.erase offset
    allocatedBytes := p.allocatedBytes - size }

/-- A call of `free` fails and changes nothing, or gives back the live block that starts at the
owned address. -/
theorem free_cases (p : JobRangePool) (ptr : Nat) :
    p.free ptr = (false, p) ∨
      ∃ offset size, p.allocations.lookup offset = some size ∧
        p.free ptr = (true, p.returned offset size) := by
  simp only [free]
  split
  · exact Or.inl rfl
  split
  · exact Or.inl rfl
  split
  · exact Or.inl rfl
  split
  · exact Or.inl rfl
  rename_i size found
  exact Or.inr ⟨p.offsetOf ptr, size, found, rfl⟩

theorem joins_tryMerge : Joins (fun _ : JobMemRange => True)
    (fun (_ : Unit) current next => (current.tryMerge next).map (·, ())) where
  touching := by
    intro aux a b _ _ na nb touch
    obtain ⟨m, hm, hf, hl⟩ := tryMerge_touching na nb touch
    exact ⟨m, (), by simp [hm], trivial, hf, hl⟩
  gap := by
    intro aux a b _ _ na nb gap
    simp [tryMerge_gap na nb gap]

/-- Spec of `insertFreeRange` on a range that meets no free range. -/
theorem insertFreeRange_spec {ranges : List JobMemRange} {range : JobMemRange}
    (sep : Separated ranges) (ne : range.first < range.last)
    (once : ∀ x, coverage (ranges ++ [range]) x ≤ 1) :
    Separated (insertFreeRange ranges range) ∧
      ∀ x, coverage (insertFreeRange ranges range) x = coverage (ranges ++ [range]) x := by
  have hne : ¬ range.empty = true := by
    simp only [empty, beq_iff_eq]
    omega
  have nonempty : ∀ a ∈ ranges ++ [range], lo a < hi a := by
    intro a ha
    rcases mem_append.mp ha with ha | ha
    · exact sep.nonempty a ha
    · rw [mem_singleton.mp ha]
      exact ne
  rw [insertFreeRange, if_neg hne, coalesceRanges]
  split
  · rename_i short
    have hnil : ranges = [] := by
      simp only [length_append, length_singleton] at short
      exact eq_nil_of_length_eq_zero (by omega)
    subst hnil
    exact ⟨⟨nonempty, pairwise_singleton _ _⟩, fun x => rfl⟩
  · have spec := compact_sorted_spec joins_tryMerge () (ranges ++ [range]) (fun _ _ => trivial)
      nonempty once
    exact ⟨spec.2.1, spec.2.2⟩

theorem Bookkeeping.alloc (book : Bookkeeping p n) (size alignment : Nat) :
    Bookkeeping (p.alloc size alignment).2 n := by
  rcases p.alloc_cases size alignment with h | h
  · rw [h]
    exact book
  · obtain ⟨m, before, r, after, offset, _, _, hpos, hfree, hfit, fresh, h⟩ := h
    rw [h]
    have fit := fitRange_some hfit
    have cut := split_cut hpos fit.1 fit.2.2
    have sep := book.separated
    have part := book.partition
    rw [hfree] at sep part
    have hentries : (p.taken before r after offset size).allocations.entries =
        ⟨offset, size⟩ :: p.allocations.entries := AList.entries_insert_of_notMem fresh
    refine ⟨sep.splice cut.separated cut.within, ?_, ?_, ?_⟩
    · intro e he
      rw [hentries] at he
      rcases mem_cons.mp he with rfl | he
      · exact hpos
      · exact book.sizes e he
    · rw [hentries]
      exact Partition.take (e := (⟨offset, size⟩ : RangeBlock)) part cut
    · rw [hentries, total_cons]
      have hlen : hi (⟨offset, size⟩ : RangeBlock) - lo (⟨offset, size⟩ : RangeBlock) = size :=
        Nat.add_sub_cancel_left _ _
      rw [hlen, Nat.add_comm, ← book.bytes]
      rfl

theorem Bookkeeping.returned (book : Bookkeeping p n) {offset size : Nat}
    (found : p.allocations.lookup offset = some size) : Bookkeeping (p.returned offset size) n := by
  have perm := entries_perm_erase found
  have mem : (⟨offset, size⟩ : RangeBlock) ∈ p.allocations.entries :=
    AList.mem_lookup_iff.mp found
  have hpos : 0 < size := book.sizes _ mem
  have same : ∀ x, Covers (fromSize offset size) x ↔
      Covers (⟨offset, size⟩ : RangeBlock) x := by
    intro x
    simp only [Covers, hi_eq, fromSize_last]
    rfl
  have grown : ∀ x, coverage (p.freeRanges ++ [fromSize offset size]) x =
      coverage p.freeRanges x + (if Covers (⟨offset, size⟩ : RangeBlock) x then 1 else 0) := by
    intro x
    rw [coverage_append, coverage_cons, coverage_nil, Nat.add_zero, if_congr (same x) rfl rfl]
  have once : ∀ x, coverage (p.freeRanges ++ [fromSize offset size]) x ≤ 1 := by
    intro x
    have h := book.partition.le_one x
    rw [coverage_perm perm x, coverage_cons] at h
    rw [grown x]
    omega
  have ne : (fromSize offset size).first < (fromSize offset size).last := by
    simpa using hpos
  have spec := insertFreeRange_spec book.separated ne once
  refine ⟨spec.1, ?_, ?_, ?_⟩
  · intro e he
    exact book.sizes e (perm.mem_iff.mpr (mem_cons_of_mem _ he))
  · exact book.partition.give perm (fun x => (spec.2 x).trans (grown x))
  · have htotal : total p.allocations.entries =
        size + total (p.allocations.erase offset).entries := by
      have hlen : hi (⟨offset, size⟩ : RangeBlock) - lo (⟨offset, size⟩ : RangeBlock) = size :=
        Nat.add_sub_cancel_left _ _
      rw [total_perm perm, total_cons, hlen]
    have := book.bytes
    change p.allocatedBytes - size = total (p.allocations.erase offset).entries
    omega

theorem Bookkeeping.free (book : Bookkeeping p n) (ptr : Nat) : Bookkeeping (p.free ptr).2 n := by
  rcases p.free_cases ptr with h | ⟨offset, size, found, h⟩
  · rw [h]
    exact book
  · rw [h]
    exact book.returned found

/-- A call on the pool. -/
inductive RangeOp where
  | alloc (size alignment : Nat)
  | free (ptr : Nat)
  | clear

def step (p : JobRangePool) : RangeOp → JobRangePool
  | .alloc size alignment => (p.alloc size alignment).2
  | .free ptr => (p.free ptr).2
  | .clear => p.clear

def run (p : JobRangePool) (ops : List RangeOp) : JobRangePool := ops.foldl step p

theorem alloc_mmap (p : JobRangePool) (size alignment : Nat) :
    (p.alloc size alignment).2.mmap = p.mmap := by
  rcases p.alloc_cases size alignment with h | ⟨m, before, r, after, offset, _, _, _, _, _, _, h⟩
  · rw [h]
  · rw [h]
    rfl

theorem free_mmap (p : JobRangePool) (ptr : Nat) : (p.free ptr).2.mmap = p.mmap := by
  rcases p.free_cases ptr with h | ⟨offset, size, _, h⟩
  · rw [h]
  · rw [h]
    rfl

/-- Every call leaves the shared mapping alone. -/
theorem clear_mmap (p : JobRangePool) : p.clear.mmap = p.mmap := by
  simp only [clear]
  split
  · rfl
  · split
    · rfl
    · split <;> rfl

theorem wholeRange_full (full : m.Full) :
    wholeRange m = some (ofBounds 0 m.mapLength) := by
  simp [wholeRange, full.whole, ofBounds]

theorem wholeRange_some {mapped : JobMemRange} (h : wholeRange m = some mapped) :
    mapped.first = 0 ∧ mapped.last = m.mapLength := by
  simp only [wholeRange] at h
  split at h
  · split at h
    · cases h
    · rename_i bounds
      obtain rfl := Option.some.inj h
      simpa using bounds
  · cases h

theorem init_full (full : m.Full) :
    init (some m) = ⟨some m, [ofBounds 0 m.mapLength], ∅, 0⟩ := by
  have hv := full.isValid
  simp [init, hv, full.addr_ne, wholeRange_full full]

/-- A pool whose only range is `[0, n)` and which has no live block. -/
theorem Bookkeeping.fresh (hn : 0 < n) (mmap : Option JobMmap) {mapped : JobMemRange}
    (hfirst : mapped.first = 0) (hlast : mapped.last = n) :
    Bookkeeping ⟨mmap, [mapped], ∅, 0⟩ n := by
  refine ⟨⟨?_, pairwise_singleton _ _⟩, by simp, ?_, rfl⟩
  · intro a ha
    rw [mem_singleton.mp ha]
    simp only [lo_eq, hi_eq]
    omega
  · intro x
    have hx : Covers mapped x ↔ x < n := by
      simp only [Covers, lo_eq, hi_eq]
      omega
    rw [coverage_cons, if_congr hx rfl rfl]
    rfl

theorem Bookkeeping.empty (mmap : Option JobMmap) : Bookkeeping ⟨mmap, [], ∅, 0⟩ 0 :=
  ⟨⟨by simp, List.Pairwise.nil⟩, by simp, fun x => rfl, rfl⟩

/-- `clear` rebuilds the whole free range when the mapping is still whole, else it leaves an
empty pool. -/
theorem clear_cases (p : JobRangePool) :
    p.clear = ⟨p.mmap, [], ∅, 0⟩ ∨ ∃ m mapped, p.mmap = some m ∧ m.isValid = true ∧
      wholeRange m = some mapped ∧ p.clear = ⟨p.mmap, [mapped], ∅, 0⟩ := by
  simp only [clear]
  split
  · exact Or.inl rfl
  rename_i m hm
  split
  · exact Or.inl rfl
  rename_i valid
  split
  · exact Or.inl rfl
  rename_i mapped hw
  exact Or.inr ⟨m, mapped, hm, by simpa using valid, hw, rfl⟩

theorem Bookkeeping.clear_full (full : m.Full) (hm : p.mmap = some m) :
    Bookkeeping p.clear m.mapLength := by
  have hv := full.isValid
  have h : p.clear = ⟨some m, [ofBounds 0 m.mapLength], ∅, 0⟩ := by
    simp [clear, hm, hv, wholeRange_full full]
  rw [h]
  exact Bookkeeping.fresh full.length_pos _ rfl (ofBounds_last (Nat.zero_le _))

/-- Over a mapping that stays whole, every state of a run keeps the invariant. -/
theorem run_bookkeeping (full : m.Full) (ops : List RangeOp) :
    ∀ p : JobRangePool, p.mmap = some m → Bookkeeping p m.mapLength →
      (run p ops).mmap = some m ∧ Bookkeeping (run p ops) m.mapLength := by
  induction ops with
  | nil => exact fun p hm book => ⟨hm, book⟩
  | cons op ops ih =>
    intro p hm book
    apply ih
    · cases op with
      | alloc size alignment => exact (p.alloc_mmap size alignment).trans hm
      | free ptr => exact (p.free_mmap ptr).trans hm
      | clear => exact p.clear_mmap.trans hm
    · cases op with
      | alloc size alignment => exact book.alloc size alignment
      | free ptr => exact book.free ptr
      | clear => exact Bookkeeping.clear_full full hm

theorem Bookkeeping.live_bound (book : Bookkeeping p n) {e : RangeBlock}
    (he : e ∈ p.allocations.entries) : e.1 + e.2 ≤ n := by
  have hpos := book.sizes e he
  exact book.partition.symm.free_hi he (by simp only [lo, hi]; omega)

/-- On a whole mapping the address of a live block can always be freed. -/
theorem free_live (full : m.Full) (hm : p.mmap = some m) (book : Bookkeeping p m.mapLength)
    {e : RangeBlock} (he : e ∈ p.allocations.entries) :
    p.free (m.addr + e.1) = (true, p.returned e.1 e.2) := by
  have hpos := book.sizes e he
  have hlt : e.1 < m.mapLength := by have := book.live_bound he; omega
  have hfits := full.representable
  have hne := full.addr_ne
  have hptr : m.addr + e.1 ≠ nullptr := by simp only [nullptr] at *; omega
  obtain ⟨r, hr, hc⟩ := full.contains hlt
  have hv := full.isValid
  have owned : p.owns (m.addr + e.1) = true := by
    simp only [owns, hm]
    rw [if_neg (by simp [hptr, hv, hne]), if_neg (by omega), if_neg (by omega),
      Nat.add_sub_cancel_left]
    exact any_eq_true.mpr ⟨r, hr, hc⟩
  have hoff : p.offsetOf (m.addr + e.1) = e.1 := by
    simp only [offsetOf, hm]
    rw [if_neg (by simp [hptr, hne]), if_neg (by omega), if_neg (by omega), if_neg (by omega),
      Nat.add_sub_cancel_left]
  have found : p.allocations.lookup (p.offsetOf (m.addr + e.1)) = some e.2 := by
    rw [hoff]
    exact AList.mem_lookup_iff.mpr he
  have hlast : ¬ e.1 = sizeMax := by omega
  simp [free, hptr, owned, hoff, hlast, found, returned]

/-- Freeing all live blocks, in any order, empties the pool of live blocks. -/
theorem free_all (full : m.Full) (order : List Nat) :
    ∀ p : JobRangePool, p.mmap = some m → Bookkeeping p m.mapLength →
      order.Perm (p.allocations.entries.map fun e => m.addr + e.1) →
      (run p (order.map RangeOp.free)).allocations = ∅ := by
  induction order with
  | nil =>
    intro p _ _ perm
    have h : p.allocations.entries = [] := by simpa using perm.symm
    exact AList.ext h
  | cons ptr order ih =>
    intro p hm book perm
    have hmem : ptr ∈ p.allocations.entries.map (fun e => m.addr + e.1) :=
      perm.mem_iff.mp mem_cons_self
    obtain ⟨e, he, rfl⟩ := mem_map.mp hmem
    have hfree := free_live full hm book he
    have found : p.allocations.lookup e.1 = some e.2 := AList.mem_lookup_iff.mpr he
    have rest : order.Perm ((p.allocations.erase e.1).entries.map fun e => m.addr + e.1) := by
      have h := perm.trans ((entries_perm_erase found).map fun e => m.addr + e.1)
      exact List.Perm.cons_inv h
    have h := ih (p.returned e.1 e.2) hm (book.returned found) rest
    simpa [run, step, hfree] using h

theorem Bookkeeping.sorted (book : Bookkeeping p n) :
    p.freeRanges.Pairwise (fun a b => a.first < b.first) := by
  refine book.separated.apart.imp_of_mem ?_
  intro a b ha _ h
  have := book.separated.nonempty a ha
  simp only [lo_eq] at *
  omega

theorem Bookkeeping.apart (book : Bookkeeping p n) :
    p.freeRanges.Pairwise (fun a b => a.overlaps b = false ∧ a.adjacent b = false) := by
  refine book.separated.apart.imp_of_mem ?_
  intro a b ha hb h
  have h1 := book.separated.nonempty a ha
  have h2 := book.separated.nonempty b hb
  simp only [lo_eq, hi_eq] at *
  simp only [overlaps, adjacent, Bool.and_eq_false_iff,
    decide_eq_false_iff_not, Bool.or_eq_false_iff, beq_eq_false_iff_ne]
  omega

theorem available_eq (p : JobRangePool) : p.available = total p.freeRanges := rfl

theorem total_entries (l : List RangeBlock) : total l = (l.map fun e => e.2).sum := by
  induction l with
  | nil => rfl
  | cons e l ih =>
    rw [total_cons, ih]
    exact congrArg (· + _) (Nat.add_sub_cancel_left _ _)

/-- On a fully mapped region, after any sequence of calls: the free list is sorted by its first
offsets, holds no empty, overlapping or adjacent ranges, and partitions the region together with
the live blocks; the byte counts agree; and freeing the live blocks in any order leaves the one
range `[0, mapLength)`. -/
theorem range_pool_partition {m : JobMmap} (full : m.Full) (ops : List RangeOp) :
    let p := run (init (some m)) ops
    p.freeRanges.Pairwise (fun a b => a.first < b.first) ∧
    (∀ r ∈ p.freeRanges, r.empty = false) ∧
    p.freeRanges.Pairwise (fun a b => a.overlaps b = false ∧ a.adjacent b = false) ∧
    Partition m.mapLength p.freeRanges p.allocations.entries ∧
    p.allocatedBytes = (p.allocations.entries.map fun e => e.2).sum ∧
    p.allocated + p.available = p.size ∧
    ∀ order : List Nat, order.Perm (p.allocations.entries.map fun e => m.addr + e.1) →
      (run p (order.map RangeOp.free)).allocations = ∅ ∧
      (run p (order.map RangeOp.free)).freeRanges = [ofBounds 0 m.mapLength] := by
  intro p
  have start := init_full full
  have hinit : Bookkeeping (init (some m)) m.mapLength := by
    rw [start]
    exact Bookkeeping.fresh full.length_pos _ rfl (ofBounds_last (Nat.zero_le _))
  have reached := run_bookkeeping full ops (init (some m)) (by rw [start]) hinit
  have hm : p.mmap = some m := reached.1
  have book : Bookkeeping p m.mapLength := reached.2
  have hlive : ∀ e ∈ p.allocations.entries, lo e < hi e := by
    intro e he
    have := book.sizes e he
    simp only [lo, hi]
    omega
  refine ⟨book.sorted, ?_, book.apart, book.partition, ?_, ?_, ?_⟩
  · intro r hr
    have h := book.separated.nonempty r hr
    simp only [lo_eq, hi_eq] at h
    simp only [empty, beq_eq_false_iff_ne]
    omega
  · rw [← total_entries]
    exact book.bytes
  · have hsum := book.partition.total_add book.separated.nonempty hlive
    have hsize : p.size = m.mapLength := by simp only [size, hm, full.mappedSize]
    rw [hsize, available_eq, allocated, book.bytes, Nat.add_comm]
    exact hsum
  · intro order perm
    have hnone := free_all full order p hm book perm
    obtain ⟨_, last⟩ := run_bookkeeping full (order.map RangeOp.free) p hm book
    refine ⟨hnone, ?_⟩
    have part := last.partition
    rw [hnone] at part
    obtain ⟨a, ha, hlo, hhi⟩ := last.separated.eq_whole full.length_pos part
    rw [ha]
    refine congrArg (fun r => [r]) (ext hlo ?_)
    rw [ofBounds_last (Nat.zero_le _)]
    exact hhi

/-- Two blocks are taken out of one page and the first is given back: its bytes and the
alignment gap behind it are one free range again. -/
theorem range_pool_partition_page :
    let p := run (init (some (JobMmap.ofMap 65536 4096 4096)))
      [.alloc 100 16, .alloc 50 64, .free 65536]
    p.freeRanges = [ofBounds 0 128, ofBounds 178 4096] ∧
      p.allocated + p.available = p.size :=
  ⟨by decide, (range_pool_partition
    (JobMmap.ofMap_full (by decide) (by decide) (by decide)) _).2.2.2.2.2.1⟩

end JobRangePool

end JobIo
