import OddBuilder.Io.RangePoolRuns

/-!
# A range pool and a second holder of its mapping

The pool caches its free ranges when it is built or cleared; another holder of
the shared mapping may unmap pages at any time. `owns`, `free` and `clear`
consult the ranges that are mapped now, the allocation path does not.
-/

namespace JobIo

open Intervals JobMemRange JobMmap

/-- The byte at this offset of the mapping is mapped. -/
def JobMmap.ByteMapped (m : JobMmap) (x : Nat) : Prop :=
  ∃ r ∈ m.mappedRanges, r.containsOffset x = true

instance (m : JobMmap) (x : Nat) : Decidable (m.ByteMapped x) :=
  inferInstanceAs (Decidable (∃ r ∈ m.mappedRanges, r.containsOffset x = true))

namespace JobRangePool

variable {addr length : Nat} {p : JobRangePool} {m : JobMmap} {r : JobMemRange}

/-- A call on the pool, or a partial unmap by another holder of the mapping. -/
inductive SharedOp where
  | pool (op : RangeOp)
  | unmap (range : JobMemRange) (os : UnmapResults)

def sharedStep (p : JobRangePool) : SharedOp → JobRangePool
  | .pool op => p.step op
  | .unmap range os => { p with mmap := p.mmap.map fun m => (m.unmapRange range os).2 }

def sharedRun (p : JobRangePool) (ops : List SharedOp) : JobRangePool := ops.foldl sharedStep p

/-- A block that `alloc` hands out consists of mapped bytes, is owned byte by byte, and can be
freed again. -/
def AllocMapped (p : JobRangePool) (size alignment : Nat) : Prop :=
  ∀ m, p.mmap = some m → (p.alloc size alignment).1 ≠ nullptr →
    (∀ k, k < size → m.ByteMapped ((p.alloc size alignment).1 + k - m.addr)) ∧
    (∀ k, k < size → (p.alloc size alignment).2.owns ((p.alloc size alignment).1 + k) = true) ∧
    ((p.alloc size alignment).2.free (p.alloc size alignment).1).1 = true

/-- No cached free range has lost a byte, unless nothing at all is mapped any more. -/
def FreeMapped (p : JobRangePool) : Prop :=
  ∀ m, p.mmap = some m → m.isValid = true →
    ∀ r ∈ p.freeRanges, ∀ x, Covers r x → m.ByteMapped x

/-- What unmapping by others cannot take from the pool. -/
structure SharedInv (addr length : Nat) (p : JobRangePool) : Prop where
  mapping : ∃ m, p.mmap = some m ∧ m.addr = addr ∧ m.mapLength = length
  book : Bookkeeping p length ∨ Bookkeeping p 0

theorem SharedInv.step (hl : 0 < length) (inv : SharedInv addr length p) (op : SharedOp) :
    SharedInv addr length (p.sharedStep op) := by
  obtain ⟨m, hm, ha, hlen⟩ := inv.mapping
  cases op with
  | pool op =>
    cases op with
    | alloc size alignment =>
      exact ⟨⟨m, (p.alloc_mmap size alignment).trans hm, ha, hlen⟩,
        inv.book.imp (fun b => b.alloc size alignment) (fun b => b.alloc size alignment)⟩
    | free ptr =>
      exact ⟨⟨m, (p.free_mmap ptr).trans hm, ha, hlen⟩,
        inv.book.imp (fun b => b.free ptr) (fun b => b.free ptr)⟩
    | clear =>
      refine ⟨⟨m, p.clear_mmap.trans hm, ha, hlen⟩, ?_⟩
      rcases p.clear_cases with h | ⟨m', mapped, hm', _, hw, h⟩
      · right
        change Bookkeeping p.clear 0
        rw [h]
        exact Bookkeeping.empty _
      · left
        change Bookkeeping p.clear length
        have hsame : m' = m := Option.some.inj (hm'.symm.trans hm)
        subst hsame
        have bounds := wholeRange_some hw
        rw [h]
        exact Bookkeeping.fresh hl _ bounds.1 (bounds.2.trans hlen)
  | unmap range os =>
    have frame := m.unmapRange_frame range os
    refine ⟨⟨(m.unmapRange range os).2, by simp [sharedStep, hm], frame.1.trans ha,
      frame.2.trans hlen⟩, ?_⟩
    exact inv.book.imp (fun b => ⟨b.separated, b.sizes, b.partition, b.bytes⟩)
      (fun b => ⟨b.separated, b.sizes, b.partition, b.bytes⟩)

theorem SharedInv.run (hl : 0 < length) (ops : List SharedOp) :
    ∀ p : JobRangePool, SharedInv addr length p → SharedInv addr length (p.sharedRun ops) := by
  induction ops with
  | nil => exact fun p inv => inv
  | cons op ops ih => exact fun p inv => ih _ (inv.step hl op)

theorem SharedInv.init (full : m.Full) : SharedInv m.addr m.mapLength (init (some m)) := by
  rw [init_full full]
  exact ⟨⟨m, rfl, rfl, rfl⟩, Or.inl (Bookkeeping.fresh full.length_pos _ rfl
    (ofBounds_last (Nat.zero_le _)))⟩

theorem SharedInv.free_bound (inv : SharedInv addr length p) (hr : r ∈ p.freeRanges) :
    r.first < r.last ∧ r.last ≤ length := by
  rcases inv.book with book | book
  · have ne := book.separated.nonempty r hr
    exact ⟨ne, book.partition.free_hi hr ne⟩
  · have ne := book.separated.nonempty r hr
    exact ⟨ne, (book.partition.free_hi hr ne).trans (Nat.zero_le _)⟩

theorem SharedInv.free_fresh (inv : SharedInv addr length p) (hr : r ∈ p.freeRanges) {x : Nat}
    (hx : Covers r x) : x ∉ p.allocations := by
  have absent : ∀ n, Bookkeeping p n → x ∉ p.allocations := by
    intro n book hmem
    obtain ⟨size, found⟩ := Option.isSome_iff_exists.mp (AList.lookup_isSome.mpr hmem)
    have he : (⟨x, size⟩ : RangeBlock) ∈ p.allocations.entries := AList.mem_lookup_iff.mp found
    have hpos := book.sizes _ he
    exact book.partition.free_live hr he hx ⟨Nat.le_refl _, Nat.lt_add_of_pos_right hpos⟩
  exact inv.book.elim (absent _) (absent _)

/-- While the cached free ranges are mapped, what `alloc` returns is mapped. -/
theorem SharedInv.alloc_mapped (hfits : addr + length ≤ sizeMax) (hne : addr ≠ nullptr)
    (inv : SharedInv addr length p) (mapped : FreeMapped p) (size alignment : Nat) :
    AllocMapped p size alignment := by
  intro m hm hptr
  obtain ⟨m', hm', ha, hlen⟩ := inv.mapping
  obtain rfl : m' = m := Option.some.inj (hm'.symm.trans hm)
  rcases p.alloc_cases size alignment with h | h
  · exact absurd (congrArg Prod.fst h) hptr
  obtain ⟨m₂, before, r, after, offset, hm₂, hv, hpos, hfree, hfit, fresh, h⟩ := h
  obtain rfl : m₂ = m' := Option.some.inj (hm₂.symm.trans hm)
  have hr : r ∈ p.freeRanges := by rw [hfree]; simp
  have fit := fitRange_some hfit
  have bound := inv.free_bound hr
  have hnull : m₂.addr ≠ nullptr := by rw [ha]; exact hne
  have hres : p.alloc size alignment =
      (m₂.addr + offset, p.taken before r after offset size) := by
    rw [h]
    refine Prod.ext ?_ rfl
    simp only [ptrAt, taken, hm]
    rw [if_neg]
    simp only [Bool.or_eq_true, beq_iff_eq, decide_eq_true_eq]
    omega
  have bytes : ∀ k, k < size → m₂.ByteMapped (offset + k) := by
    intro k hk
    apply mapped m₂ hm hv r hr
    exact ⟨by simp only [lo_eq]; omega, by simp only [hi_eq]; omega⟩
  have owned : ∀ k, k < size →
      (p.taken before r after offset size).owns (m₂.addr + offset + k) = true := by
    intro k hk
    obtain ⟨q, hq, hc⟩ := bytes k hk
    have hp : m₂.addr + offset + k ≠ nullptr := by simp only [nullptr] at *; omega
    simp only [owns, taken, hm]
    rw [if_neg (by simp [hp, hv, hnull]), if_neg (by omega), if_neg (by omega)]
    exact List.any_eq_true.mpr ⟨q, hq, by rw [Nat.add_assoc, Nat.add_sub_cancel_left]; exact hc⟩
  rw [hres]
  refine ⟨fun k hk => ?_, owned, ?_⟩
  · rw [Nat.add_assoc, Nat.add_sub_cancel_left]
    exact bytes k hk
  · have hown := owned 0 hpos
    rw [Nat.add_zero] at hown
    have hp : m₂.addr + offset ≠ nullptr := by simp only [nullptr] at *; omega
    have hoff : (p.taken before r after offset size).offsetOf (m₂.addr + offset) = offset := by
      simp only [offsetOf, taken, hm]
      rw [if_neg (by simp [hp, hnull]), if_neg (by omega), if_neg (by omega), if_neg (by omega),
        Nat.add_sub_cancel_left]
    have found : (p.taken before r after offset size).allocations.lookup
        ((p.taken before r after offset size).offsetOf (m₂.addr + offset)) = some size := by
      rw [hoff]
      exact AList.lookup_insert _
    have hlast : ¬ offset = sizeMax := by omega
    simp [free, hp, hown, hoff, hlast, found]

theorem alignUp_one {value : Nat} (h : value ≤ sizeMax) : alignUp value 1 = value := by
  have hmask : (value + 0) &&& (sizeMax ^^^ 0) = value := by
    rw [Nat.xor_zero, sizeMax, Nat.and_two_pow_sub_one_eq_mod]
    exact Nat.mod_eq_of_lt (by simp only [sizeMax] at h; omega)
  simp only [alignUp]
  rw [if_neg (by decide), if_neg (by simpa using h)]
  exact hmask

/-- A request for exactly the first free range takes that range. -/
theorem SharedInv.alloc_head (hfits : addr + length ≤ sizeMax) (hne : addr ≠ nullptr)
    (inv : SharedInv addr length p) (hm : p.mmap = some m) (hv : m.isValid = true)
    {rest : List JobMemRange} (hfree : p.freeRanges = r :: rest) :
    (p.alloc r.size 1).1 = addr + r.first ∧ (p.alloc r.size 1).2.freeRanges = rest ∧
      (p.alloc r.size 1).2.mmap = some m := by
  obtain ⟨m', hm', ha, hlen⟩ := inv.mapping
  obtain rfl : m' = m := Option.some.inj (hm'.symm.trans hm)
  have hr : r ∈ p.freeRanges := by rw [hfree]; simp
  have bound := inv.free_bound hr
  have hsize : r.size = r.last - r.first := rfl
  have fresh := inv.free_fresh hr (x := r.first) ⟨Nat.le_refl _, bound.1⟩
  have hnull : m'.addr ≠ nullptr := by rw [ha]; exact hne
  have hfit : fitRange m'.addr r.size 1 r = some r.first := by
    simp only [fitRange]
    rw [if_neg (by simp only [empty, beq_iff_eq]; omega), if_neg (by omega),
      if_neg (by omega), alignUp_one (by omega),
      if_neg (by simp only [beq_iff_eq]; omega), if_neg (by omega), if_neg (by omega),
      if_neg (by simp only [Bool.or_eq_true, decide_eq_true_eq]; omega), if_neg (by omega),
      Nat.add_sub_cancel_left]
  have found : p.findFreeRange r.size 1 = some (0, r.first) := by
    simp only [findFreeRange, hm]
    rw [if_neg (by simp [hv, hnull]), if_neg (by
      simp only [Bool.or_eq_true, beq_iff_eq, not_or]
      exact ⟨by omega, by decide⟩), hfree]
    simp [firstFit, hfit]
  have hsplit : splitRange p.freeRanges 0 r.first r.size = rest := by
    have h := splitRange_eq [] rest r r.first r.size
    simp only [List.nil_append, List.length_nil] at h
    rw [hfree, h, carve, lo_eq, hi_eq, if_neg (Nat.lt_irrefl _), if_neg (by omega)]
    rfl
  have hguard : ¬ (r.size == 0 || !validAlignment 1) = true := by
    simp only [Bool.or_eq_true, beq_iff_eq, not_or]
    exact ⟨by omega, by decide⟩
  have hres : p.alloc r.size 1 = ({ p with
      allocations := p.allocations.insert r.first r.size
      freeRanges := splitRange p.freeRanges 0 r.first r.size
      allocatedBytes := p.allocatedBytes + r.size }.ptrAt r.first, { p with
      allocations := p.allocations.insert r.first r.size
      freeRanges := splitRange p.freeRanges 0 r.first r.size
      allocatedBytes := p.allocatedBytes + r.size }) := by
    simp only [alloc]
    rw [if_neg hguard, if_neg (by simp [hm, hv]), found]
    simp [if_neg fresh]
  rw [hres]
  refine ⟨?_, hsplit, hm⟩
  simp only [ptrAt, hm]
  rw [if_neg, ha]
  simp only [Bool.or_eq_true, beq_iff_eq, decide_eq_true_eq]
  omega

/-- A row of allocations, `(size, alignment)` each. -/
def allocs (p : JobRangePool) (requests : List (Nat × Nat)) : JobRangePool :=
  requests.foldl (fun p q => (p.alloc q.1 q.2).2) p

theorem SharedInv.allocs (hl : 0 < length) (requests : List (Nat × Nat)) :
    ∀ p : JobRangePool, SharedInv addr length p → SharedInv addr length (p.allocs requests) := by
  induction requests with
  | nil => exact fun p inv => inv
  | cons q requests ih => exact fun p inv => ih _ (inv.step hl (.pool (.alloc q.1 q.2)))

/-- Allocating does not put bytes on the free list. -/
theorem FreeMapped.alloc (mapped : FreeMapped p) (size alignment : Nat) :
    FreeMapped (p.alloc size alignment).2 := by
  rcases p.alloc_cases size alignment with h | h
  · rw [h]
    exact mapped
  obtain ⟨m, before, r, after, offset, hm, _, hpos, hfree, hfit, _, h⟩ := h
  have fit := fitRange_some hfit
  have cut := split_cut hpos fit.1 fit.2.2
  rw [h]
  intro m' hm' hv q hq x hx
  have old : ∀ r' ∈ p.freeRanges, Covers r' x → m'.ByteMapped x :=
    fun r' hr' hc => mapped m' hm' hv r' hr' x hc
  rw [hfree] at old
  rcases List.mem_append.mp hq with hq | hq
  · exact old q (by simp [hq]) hx
  rcases List.mem_append.mp hq with hq | hq
  · have inside := cut.within q hq
    exact old r (by simp) ⟨inside.1.trans hx.1, Nat.lt_of_lt_of_le hx.2 inside.2⟩
  · exact old q (by simp [hq]) hx

theorem FreeMapped.allocs (requests : List (Nat × Nat)) :
    ∀ p : JobRangePool, FreeMapped p → FreeMapped (p.allocs requests) := by
  induction requests with
  | nil => exact fun p mapped => mapped
  | cons q requests ih => exact fun p mapped => ih _ (mapped.alloc q.1 q.2)

/-- Requests for whole free ranges, one after the other, reach every range of the list. -/
theorem SharedInv.reach_range (hl : 0 < length) (hfits : addr + length ≤ sizeMax)
    (hne : addr ≠ nullptr) (hv : m.isValid = true) (front : List JobMemRange) :
    ∀ p : JobRangePool, SharedInv addr length p → p.mmap = some m →
      ∀ r back, p.freeRanges = front ++ r :: back →
        ∃ requests, (p.allocs requests).mmap = some m ∧
          (p.allocs requests).freeRanges = r :: back := by
  induction front with
  | nil => exact fun p _ hm r back hfree => ⟨[], hm, hfree⟩
  | cons q front ih =>
    intro p inv hm r back hfree
    obtain ⟨_, hrest, hm'⟩ := inv.alloc_head hfits hne hm hv hfree
    obtain ⟨requests, h1, h2⟩ := ih _ (inv.step hl (.pool (.alloc q.size 1))) hm' r back hrest
    exact ⟨(q.size, 1) :: requests, h1, h2⟩

/-- A free range that lost a byte is handed out by some row of allocations. -/
theorem SharedInv.free_mapped_of_allocs (hl : 0 < length) (hfits : addr + length ≤ sizeMax)
    (hne : addr ≠ nullptr) (inv : SharedInv addr length p)
    (safe : ∀ before size alignment, AllocMapped (p.allocs before) size alignment) :
    FreeMapped p := by
  intro m hm hv r hr x hx
  obtain ⟨m', hm', ha⟩ := inv.mapping
  obtain rfl : m' = m := Option.some.inj (hm'.symm.trans hm)
  obtain ⟨front, back, hfree⟩ := List.append_of_mem hr
  obtain ⟨requests, hq, hhead⟩ := inv.reach_range hl hfits hne hv front p hm r back hfree
  have head := (inv.allocs hl requests).alloc_head hfits hne hq hv hhead
  have hptr : ((p.allocs requests).alloc r.size 1).1 ≠ nullptr := by
    simp only [nullptr] at *
    omega
  have hbounds : r.first ≤ x ∧ x < r.last := hx
  have hsize : r.size = r.last - r.first := rfl
  have bytes := (safe requests r.size 1 m' hq hptr).1 (x - r.first) (by omega)
  have hsame : ((p.allocs requests).alloc r.size 1).1 + (x - r.first) - m'.addr = x := by
    omega
  rw [hsame] at bytes
  exact bytes

/-- In a run whose allocations all start from a free list that is still mapped, every block
handed out is mapped, owned and freeable. The condition is the weakest one: a free list that lost
a byte is exactly one from which further allocations hand out an unmapped byte. -/
theorem shared_alloc_mapped {m : JobMmap} (full : m.Full) (ops : List SharedOp) :
    ((∀ before size alignment after, ops = before ++ .pool (.alloc size alignment) :: after →
        FreeMapped (sharedRun (init (some m)) before)) →
      ∀ before size alignment after, ops = before ++ .pool (.alloc size alignment) :: after →
        AllocMapped (sharedRun (init (some m)) before) size alignment) ∧
    (FreeMapped (sharedRun (init (some m)) ops) ↔
      ∀ before size alignment,
        AllocMapped ((sharedRun (init (some m)) ops).allocs before) size alignment) := by
  have reached : ∀ ops, SharedInv m.addr m.mapLength (sharedRun (init (some m)) ops) :=
    fun ops => SharedInv.run full.length_pos ops _ (SharedInv.init full)
  refine ⟨?_, ?_, ?_⟩
  · intro condition before size alignment after split
    exact (reached before).alloc_mapped full.representable full.addr_ne
      (condition before size alignment after split) size alignment
  · intro mapped before size alignment
    exact ((reached ops).allocs full.length_pos before).alloc_mapped full.representable
      full.addr_ne (mapped.allocs before) size alignment
  · intro safe
    exact (reached ops).free_mapped_of_allocs full.length_pos full.representable full.addr_ne safe

/-- Nothing was unmapped: every block of the run is mapped. -/
theorem shared_alloc_mapped_page :
    AllocMapped (sharedRun (init (some (ofMap 65536 8192 4096))) [.pool (.alloc 100 16)])
      50 64 := by
  have full : (ofMap 65536 8192 4096).Full :=
    ofMap_full (by decide) (by decide) (by decide)
  refine (shared_alloc_mapped full [.pool (.alloc 100 16)]).2.mp ?_ [] 50 64
  intro m hm _ r hr x hx
  obtain rfl : ofMap 65536 8192 4096 = m := Option.some.inj hm
  have hfree : (sharedRun (init (some (ofMap 65536 8192 4096)))
      [.pool (.alloc 100 16)]).freeRanges = [ofBounds 100 8192] := by decide
  rw [hfree, List.mem_singleton] at hr
  subst hr
  exact full.contains hx.2

/-- The first page of a two-page mapping is unmapped before the first allocation: the block
returned is the first page, and none of its bytes is mapped or owned. -/
theorem alloc_hands_out_unmapped_page :
    ∃ (m : JobMmap) (ops : List SharedOp) (size alignment : Nat), m.Full ∧
      (sharedRun (init (some m)) ops).mmap ≠ none ∧
      ((sharedRun (init (some m)) ops).alloc size alignment).1 ≠ nullptr ∧
      ¬ AllocMapped (sharedRun (init (some m)) ops) size alignment := by
  refine ⟨ofMap 65536 8192 4096,
    [.unmap (ofBounds 0 4096) ⟨true, true⟩], 16, 16,
    ofMap_full (by decide) (by decide) (by decide), by decide, by decide, ?_⟩
  intro mapped
  have bytes := (mapped ((ofMap 65536 8192 4096).unmapRange
    (ofBounds 0 4096) ⟨true, true⟩).2 rfl (by decide)).1 0 (by decide)
  revert bytes
  decide

end JobRangePool

end JobIo
