import OddBuilder.Io.PagePoolRuns

/-!
# The size pool

Objects of one size carved out of spans that a shared page pool hands out. The
page pool is not part of the size pool's state: every call takes it and gives
it back, so that several size pools and other users can share one.
-/

namespace JobIo

/-- A size class; its fields carry the contracts of the constructor. -/
structure JobMemSize where
  id : Nat
  objectSize : Nat
  alignment : Nat
  pageSize : Nat
  pagesPerSpan : Nat
  objectSize_pos : 0 < objectSize
  alignment_valid : JobMemRange.validAlignment alignment = true
  compatible : objectSize % alignment = 0
  pageSize_pos : 0 < pageSize
  pagesPerSpan_pos : 0 < pagesPerSpan
  no_overflow : pagesPerSpan ≤ sizeMax / pageSize
  fits : objectSize ≤ pageSize * pagesPerSpan

namespace JobMemSize

def spanSize (c : JobMemSize) : Nat := c.pageSize * c.pagesPerSpan

def objectsPerSpan (c : JobMemSize) : Nat := c.spanSize / c.objectSize

end JobMemSize

/-- `JobSizePool::PageAllocation`: one span obtained from the page pool. -/
structure SpanAllocation where
  addr : Nat
  pageCount : Nat
  objectCount : Nat
deriving DecidableEq, Repr

/-- `attached` says whether `m_pagePool` is set. -/
structure JobSizePool where
  sizeClass : JobMemSize
  attached : Bool
  pageAllocations : List SpanAllocation
  freeObjects : List Nat
  allocations : AList (fun _ : Nat => Nat)
  objectCapacity : Nat
  allocatedObjects : Nat

namespace JobSizePool

def validRequest (s : JobSizePool) (size alignment : Nat) : Bool :=
  if size == 0 then false
  else if !JobMemRange.validAlignment alignment then false
  else if size > s.sizeClass.objectSize then false
  else if alignment > s.sizeClass.alignment then false
  else if s.sizeClass.alignment % alignment ≠ 0 then false
  else true

/-- Addresses that `buildFreeList` pushes for a span, in order. -/
def objectsAt (addr objectSize objectCount : Nat) : List Nat :=
  (List.range objectCount).map fun i => addr + i * objectSize

def buildFreeList (s : JobSizePool) (addr objectCount : Nat) : JobSizePool :=
  if addr == nullptr || objectCount == 0 then s
  else
    { s with
      freeObjects := s.freeObjects ++ objectsAt addr s.sizeClass.objectSize objectCount }

def grow (s : JobSizePool) (pagePool : JobPagePool) : Bool × JobSizePool × JobPagePool :=
  if !s.attached then (false, s, pagePool)
  else
    let pageCount := s.sizeClass.pagesPerSpan
    if pageCount == 0 then (false, s, pagePool)
    else
      let objectCount := s.sizeClass.objectsPerSpan
      if objectCount == 0 then (false, s, pagePool)
      else
        match pagePool.allocPages pageCount with
        | (addr, pagePool) =>
          if addr == nullptr then (false, s, pagePool)
          else
            let span : SpanAllocation := ⟨addr, pageCount, objectCount⟩
            let s := { s with pageAllocations := s.pageAllocations ++ [span] }
            let s := s.buildFreeList addr objectCount
            (true, { s with objectCapacity := s.objectCapacity + objectCount }, pagePool)

/-- The part of `alloc` behind the growth: pop the last free object and record it. -/
def popObject (s : JobSizePool) (size : Nat) : Nat × JobSizePool :=
  match s.freeObjects.getLast? with
  | none => (nullptr, s)
  | some ptr =>
    if ptr ∈ s.allocations then (nullptr, s)
    else
      (ptr, { s with
        freeObjects := s.freeObjects.dropLast
        allocations := s.allocations.insert ptr size
        allocatedObjects := s.allocatedObjects + 1 })

def alloc (s : JobSizePool) (pagePool : JobPagePool) (size alignment : Nat) :
    Nat × JobSizePool × JobPagePool :=
  if !s.validRequest size alignment then (nullptr, s, pagePool)
  else if !s.attached then (nullptr, s, pagePool)
  else if s.freeObjects.isEmpty then
    match s.grow pagePool with
    | (false, s, pagePool) => (nullptr, s, pagePool)
    | (true, s, pagePool) => ((s.popObject size).1, (s.popObject size).2, pagePool)
  else ((s.popObject size).1, (s.popObject size).2, pagePool)

def allocObject (s : JobSizePool) (pagePool : JobPagePool) : Nat × JobSizePool × JobPagePool :=
  s.alloc pagePool s.sizeClass.objectSize s.sizeClass.alignment

def owns (s : JobSizePool) (ptr : Nat) : Bool :=
  ptr != nullptr && s.pageAllocations.any fun a =>
    a.addr != nullptr && !decide (s.sizeClass.spanSize > sizeMax - a.addr) &&
      decide (ptr ≥ a.addr) && decide (ptr < a.addr + s.sizeClass.spanSize)

/-- The first span whose objects reach the address decides. -/
def isObjectBoundary (s : JobSizePool) (ptr : Nat) : Bool :=
  if ptr == nullptr then false
  else
    match s.pageAllocations.find? fun a =>
      a.addr != nullptr && !decide (ptr < a.addr) &&
        decide (ptr - a.addr < a.objectCount * s.sizeClass.objectSize) with
    | none => false
    | some a => (ptr - a.addr) % s.sizeClass.objectSize == 0

def free (s : JobSizePool) (ptr : Nat) : Bool × JobSizePool :=
  if ptr == nullptr then (false, s)
  else if !s.owns ptr then (false, s)
  else if !s.isObjectBoundary ptr then (false, s)
  else if ptr ∈ s.allocations then
    (true, { s with
      freeObjects := s.freeObjects ++ [ptr]
      allocations := s.allocations.erase ptr
      allocatedObjects := s.allocatedObjects - 1 })
  else (false, s)

/-- The loop of `clear` over the spans. -/
def freeSpans (spans : List SpanAllocation) (pagePool : JobPagePool) : JobPagePool :=
  spans.foldl
    (fun pagePool a => if a.addr != nullptr then (pagePool.free a.addr).2 else pagePool) pagePool

def clear (s : JobSizePool) (pagePool : JobPagePool) : JobSizePool × JobPagePool :=
  ({ s with
      pageAllocations := []
      freeObjects := []
      allocations := ∅
      objectCapacity := 0
      allocatedObjects := 0 },
    if s.attached then freeSpans s.pageAllocations pagePool else pagePool)

def init (sizeClass : JobMemSize) (pagePool : JobPagePool) : JobSizePool where
  sizeClass := sizeClass
  attached :=
    if pagePool.pageSize ≠ sizeClass.pageSize then false
    else if sizeClass.pageSize % sizeClass.alignment ≠ 0 then false
    else if sizeClass.objectsPerSpan == 0 then false
    else true
  pageAllocations := []
  freeObjects := []
  allocations := ∅
  objectCapacity := 0
  allocatedObjects := 0

end JobSizePool

end JobIo

/-!
## The spans of a size pool

What a page pool grants, as its users see it: fresh blocks that stay apart from
all others. A size pool holds its spans as such blocks and carves its objects
out of them.
-/

namespace JobIo

open Intervals

namespace JobPagePool

variable {p q : JobPagePool} {e : PageBlock}

/-- A page pool between calls: never set up, or with its bookkeeping over a valid extent. -/
def Ready (p : JobPagePool) : Prop :=
  (p.extent = none ∧ p.allocations = ∅) ∨
    ∃ extent, PageGeometry extent p.pageSize ∧ PageBookkeeping extent p.pageSize p

/-- What no call changes. -/
structure SameFrame (p q : JobPagePool) : Prop where
  extent_eq : q.extent = p.extent
  pageSize_eq : q.pageSize = p.pageSize
  pages_eq : q.pages = p.pages

theorem SameFrame.refl (p : JobPagePool) : SameFrame p p := ⟨rfl, rfl, rfl⟩

theorem SameFrame.trans {r : JobPagePool} (h : SameFrame p q) (k : SameFrame q r) :
    SameFrame p r :=
  ⟨k.extent_eq.trans h.extent_eq, k.pageSize_eq.trans h.pageSize_eq, k.pages_eq.trans h.pages_eq⟩

theorem SameFrame.ptrAtPage (h : SameFrame p q) (index : Nat) :
    q.ptrAtPage index = p.ptrAtPage index := by
  simp [JobPagePool.ptrAtPage, h.extent_eq, h.pageSize_eq, h.pages_eq]

theorem ready_init (extent : Option JobMemExtent) (pageSize : Nat)
    (representable : ∀ e ∈ extent, e.addr + e.size ≤ sizeMax) : Ready (init extent pageSize) := by
  cases extent with
  | none => exact Or.inl ⟨rfl, rfl⟩
  | some e =>
    by_cases valid : validPageGeometry e pageSize = true
    · have geo : PageGeometry e pageSize := ⟨valid, representable e rfl⟩
      have hps : (init (some e) pageSize).pageSize = pageSize := (init_bookkeeping geo).pageSize_eq
      refine Or.inr ⟨e, ?_, ?_⟩
      · rw [hps]
        exact geo
      · rw [hps]
        exact init_bookkeeping geo
    · exact Or.inl (by simp [init, valid])

/-- A live block starts at a page boundary and ends at an address. -/
structure BlockAt (p : JobPagePool) (e : PageBlock) : Prop where
  pageSize_pos : 0 < p.pageSize
  count_pos : 0 < e.2.pageCount
  ptr_pos : 0 < p.ptrAtPage e.1
  aligned : p.ptrAtPage e.1 % p.pageSize = 0
  bound : p.ptrAtPage e.1 + e.2.pageCount * p.pageSize ≤ sizeMax

theorem ptrAtPage_eq {extent : JobMemExtent} (geo : PageGeometry extent p.pageSize)
    (book : PageBookkeeping extent p.pageSize p) (index : Nat)
    (h : index < extent.size / p.pageSize) :
    p.ptrAtPage index = extent.addr + index * p.pageSize := by
  have hpages : p.pages.length = extent.size / p.pageSize := book.pageCount
  have hroom := geo.page_lt h
  have hrep := geo.representable
  have hdiv : ¬ index > sizeMax / p.pageSize := by
    rw [Nat.not_lt, Nat.le_div_iff_mul_le geo.pageSize_pos]
    omega
  simp only [JobPagePool.ptrAtPage, book.extent_eq]
  rw [if_neg (by simp [geo.mapped, hpages]; exact h), if_neg hdiv]
  rfl

theorem Ready.block (ready : Ready p) (he : e ∈ p.allocations.entries) : BlockAt p e := by
  rcases ready with ⟨_, none⟩ | ⟨extent, geo, book⟩
  · rw [none] at he
    cases he
  have hcount := (book.blocks e he).1
  have hbound := book.live_bound he
  have hptr := ptrAtPage_eq geo book e.1 (by omega)
  have hbytes : (e.1 + e.2.pageCount) * p.pageSize ≤ extent.size :=
    (Nat.mul_le_mul_right _ hbound).trans_eq geo.count_mul
  have hpos := geo.addr_pos
  have hrep := geo.representable
  rw [Nat.add_mul] at hbytes
  refine ⟨geo.pageSize_pos, hcount, by omega, ?_, by omega⟩
  rw [hptr, Nat.add_mul_mod_self_right]
  exact geo.facts.2.2.2.1

/-- Two live blocks share no byte. -/
theorem Ready.blocks_apart (ready : Ready p) {f : PageBlock} (he : e ∈ p.allocations.entries)
    (hf : f ∈ p.allocations.entries) (hne : e.1 ≠ f.1) :
    p.ptrAtPage e.1 + e.2.pageCount * p.pageSize ≤ p.ptrAtPage f.1 ∨
      p.ptrAtPage f.1 + f.2.pageCount * p.pageSize ≤ p.ptrAtPage e.1 := by
  rcases ready with ⟨_, none⟩ | ⟨extent, geo, book⟩
  · rw [none] at he
    cases he
  have disjoint := pairwise_disjoint (fun x => book.partition.live_once x)
  have symm : Std.Symm (fun a b : PageBlock => ∀ x, ¬ (Covers a x ∧ Covers b x)) :=
    ⟨fun a b h x hx => h x hx.symm⟩
  have sep := disjoint.forall he hf (fun h => hne (congrArg Sigma.fst h))
  have ne := (book.blocks e he).1
  have nf := (book.blocks f hf).1
  have he' := book.live_bound he
  have hf' := book.live_bound hf
  rw [ptrAtPage_eq geo book e.1 (by omega), ptrAtPage_eq geo book f.1 (by omega)]
  have order : e.1 + e.2.pageCount ≤ f.1 ∨ f.1 + f.2.pageCount ≤ e.1 := by
    by_contra hover
    rcases Nat.le_total e.1 f.1 with h | h
    · exact sep f.1 ⟨⟨h, by simp only [hi]; omega⟩, ⟨Nat.le_refl _, by simp only [hi]; omega⟩⟩
    · exact sep e.1 ⟨⟨Nat.le_refl _, by simp only [hi]; omega⟩, ⟨h, by simp only [hi]; omega⟩⟩
  rcases order with h | h
  · have := Nat.mul_le_mul_right p.pageSize h
    rw [Nat.add_mul] at this
    omega
  · have := Nat.mul_le_mul_right p.pageSize h
    rw [Nat.add_mul] at this
    omega

theorem Ready.ptr_injective (ready : Ready p) {f : PageBlock} (he : e ∈ p.allocations.entries)
    (hf : f ∈ p.allocations.entries) (h : p.ptrAtPage e.1 = p.ptrAtPage f.1) : e = f := by
  by_contra hne
  have hkey : e.1 ≠ f.1 := by
    intro key
    have h1 := AList.mem_lookup_iff.mpr he
    have h2 := AList.mem_lookup_iff.mpr hf
    rw [key] at h1
    exact hne (Sigma.ext key (heq_of_eq (Option.some.inj (h1.symm.trans h2))))
  have be := ready.block he
  have bf := ready.block hf
  have hes := Nat.mul_pos be.count_pos be.pageSize_pos
  have hfs := Nat.mul_pos bf.count_pos bf.pageSize_pos
  rcases ready.blocks_apart he hf hkey with h' <;> omega

/-- A successful request adds one block, and its answer is the address of that block. -/
structure Grants (p : JobPagePool) (count ptr : Nat) (q : JobPagePool) : Prop where
  frame : SameFrame p q
  ready : Ready q
  block : ∃ e : PageBlock, e.2.pageCount = count ∧ e.1 ∉ p.allocations ∧
    q.allocations.entries = e :: p.allocations.entries ∧ ptr = q.ptrAtPage e.1

theorem Takes.grants {extent : JobMemExtent} (geo : PageGeometry extent p.pageSize)
    (book : PageBookkeeping extent p.pageSize p) {count : Nat} (hc : 0 < count)
    {result : Nat × JobPagePool} (h : Takes extent p count result) :
    Grants p count result.1 result.2 := by
  have after := book.takes hc h
  obtain ⟨before, r, rest, idFront, idBack, nextSpanId, first, requested, _, _, _, fresh, rfl⟩ := h
  refine ⟨⟨rfl, rfl, rfl⟩, Or.inr ⟨extent, geo, after⟩, ⟨first, ⟨first, count, requested⟩⟩, rfl,
    fresh, ?_, rfl⟩
  exact AList.entries_insert_of_notMem fresh

theorem Ready.alloc (ready : Ready p) (size alignment : Nat) :
    p.alloc size alignment = (nullptr, p) ∨
      ∃ count, Grants p count (p.alloc size alignment).1 (p.alloc size alignment).2 := by
  rcases ready with ⟨none⟩ | ⟨extent, geo, book⟩
  · refine Or.inl ?_
    simp only [JobPagePool.alloc, none]
    split <;> rfl
  · rcases alloc_cases book.extent_eq size alignment with h | ⟨count, hc, h⟩
    · exact Or.inl h
    · exact Or.inr ⟨count, h.grants geo book hc⟩

theorem Ready.allocPages (ready : Ready p) (count : Nat) :
    p.allocPages count = (nullptr, p) ∨
      Grants p count (p.allocPages count).1 (p.allocPages count).2 := by
  rcases ready with ⟨none⟩ | ⟨extent, geo, book⟩
  · refine Or.inl ?_
    simp only [JobPagePool.allocPages, none]
    split <;> rfl
  · rcases allocPages_cases book.extent_eq count with h | ⟨hc, h⟩
    · exact Or.inl h
    · exact Or.inr (h.grants geo book hc)

/-- A new block is at an address at which no block was. -/
theorem Grants.fresh {count ptr : Nat} (grant : Grants p count ptr q) :
    ∀ e ∈ p.allocations.entries, p.ptrAtPage e.1 ≠ ptr := by
  obtain ⟨f, _, hfresh, hentries, hptr⟩ := grant.block
  intro e he heq
  have hq : e ∈ q.allocations.entries := by
    rw [hentries]
    exact List.mem_cons_of_mem f he
  have hf : f ∈ q.allocations.entries := by
    rw [hentries]
    exact List.mem_cons_self
  have same : e = f := by
    refine grant.ready.ptr_injective hq hf ?_
    rw [grant.frame.ptrAtPage, heq, hptr]
  rw [← same] at hfresh
  exact hfresh (AList.mem_keys.mpr (List.mem_map_of_mem he))

/-- Giving back an address leaves every block at another address alone. -/
theorem Ready.free (ready : Ready p) (ptr : Nat) :
    Ready (p.free ptr).2 ∧ SameFrame p (p.free ptr).2 ∧
      ((p.free ptr).1 = false → (p.free ptr).2 = p) ∧
      ∀ e ∈ p.allocations.entries, p.ptrAtPage e.1 ≠ ptr →
        e ∈ (p.free ptr).2.allocations.entries := by
  have whole := ready
  rcases ready with ⟨none⟩ | ⟨extent, geo, book⟩
  · have h : p.free ptr = (false, p) := by
      simp only [JobPagePool.free, none]
      split <;> rfl
    rw [h]
    exact ⟨whole, SameFrame.refl p, fun _ => rfl, fun e he _ => he⟩
  · have after := book.free ptr
    rcases free_cases book.extent_eq ptr with h | ⟨index, allocation, found, hptr, h⟩
    · rw [h]
      exact ⟨whole, SameFrame.refl p, fun _ => rfl, fun e he _ => he⟩
    · rw [h] at after ⊢
      refine ⟨Or.inr ⟨extent, geo, after⟩, ⟨rfl, rfl, rfl⟩, fun h => (Bool.noConfusion h), ?_⟩
      intro e he hne
      rcases List.mem_cons.mp ((entries_perm_erase found).mem_iff.mp he) with rfl | he'
      · refine absurd ?_ hne
        have hcount := (book.blocks _ he).1
        have hbound := book.live_bound he
        rw [hptr]
        exact ptrAtPage_eq geo book index (by dsimp only at *; omega)
      · exact he'

end JobPagePool

namespace JobSizePool

variable {p q : JobPagePool} {s : JobSizePool}

def spanAddrs (s : JobSizePool) : List Nat := s.pageAllocations.map SpanAllocation.addr

def liveObjects (s : JobSizePool) : List Nat := s.allocations.keys

/-- All objects carved out of the spans of the pool. -/
def objects (s : JobSizePool) : List Nat :=
  s.pageAllocations.flatMap fun a => objectsAt a.addr s.sizeClass.objectSize a.objectCount

/-- The span is a live block of the page pool, with the geometry of the size class. -/
structure SpanLive (p : JobPagePool) (c : JobMemSize) (a : SpanAllocation) : Prop where
  pageCount_eq : a.pageCount = c.pagesPerSpan
  objectCount_eq : a.objectCount = c.objectsPerSpan
  live : ∃ e ∈ p.allocations.entries, a.addr = p.ptrAtPage e.1 ∧ e.2.pageCount = c.pagesPerSpan

/-- What holds of a size pool over the page pool between calls. -/
structure Holds (p : JobPagePool) (s : JobSizePool) : Prop where
  geometry : s.attached = true →
    s.sizeClass.pageSize = p.pageSize ∧ s.sizeClass.pageSize % s.sizeClass.alignment = 0
  detached : s.attached = false → s.pageAllocations = []
  spans : ∀ a ∈ s.pageAllocations, SpanLive p s.sizeClass a
  objects_perm : (s.freeObjects ++ s.liveObjects).Perm s.objects
  capacity : s.objectCapacity = s.objects.length
  count : s.allocatedObjects = s.liveObjects.length

/-- A size pool only looks at the blocks its own spans are. -/
theorem Holds.transport (holds : Holds p s) (frame : JobPagePool.SameFrame p q)
    (kept : ∀ e ∈ p.allocations.entries, p.ptrAtPage e.1 ∈ s.spanAddrs → e ∈ q.allocations.entries) :
    Holds q s := by
  refine ⟨?_, holds.detached, ?_, holds.objects_perm, holds.capacity, holds.count⟩
  · rw [frame.pageSize_eq]
    exact holds.geometry
  · intro a ha
    obtain ⟨hpages, hobjects, e, he, haddr, hcount⟩ := holds.spans a ha
    refine ⟨hpages, hobjects, e, kept e he ?_, ?_, hcount⟩
    · rw [← haddr]
      exact List.mem_map_of_mem ha
    · rw [frame.ptrAtPage]
      exact haddr

theorem Holds.grants (holds : Holds p s) {count ptr : Nat}
    (grant : JobPagePool.Grants p count ptr q) : Holds q s := by
  obtain ⟨e, _, _, hentries, _⟩ := grant.block
  refine holds.transport grant.frame (fun f hf _ => ?_)
  rw [hentries]
  exact List.mem_cons_of_mem e hf

/-- Span addresses are addresses of live blocks. -/
theorem Holds.addr_live (holds : Holds p s) {addr : Nat} (h : addr ∈ s.spanAddrs) :
    ∃ e ∈ p.allocations.entries, addr = p.ptrAtPage e.1 := by
  obtain ⟨a, ha, rfl⟩ := List.mem_map.mp h
  obtain ⟨e, he, haddr, _⟩ := (holds.spans a ha).live
  exact ⟨e, he, haddr⟩

theorem objectsPerSpan_pos (c : JobMemSize) : 0 < c.objectsPerSpan :=
  Nat.div_pos c.fits c.objectSize_pos

theorem Holds.popObject (holds : Holds p s) (size : Nat) : Holds p (s.popObject size).2 := by
  simp only [JobSizePool.popObject]
  split
  · exact holds
  rename_i ptr hlast
  split
  · exact holds
  rename_i fresh
  have hback : s.freeObjects.dropLast ++ [ptr] = s.freeObjects :=
    List.dropLast_append_getLast? ptr hlast
  have hkeys : (s.allocations.insert ptr size).keys = ptr :: s.allocations.keys :=
    congrArg (List.map Sigma.fst) (AList.entries_insert_of_notMem fresh)
  refine ⟨holds.geometry, holds.detached, holds.spans, ?_, holds.capacity, ?_⟩
  · have moved : s.freeObjects.dropLast ++ ptr :: s.allocations.keys =
        s.freeObjects ++ s.allocations.keys := by
      rw [List.append_cons, hback]
    simp only [liveObjects, hkeys]
    rw [moved]
    exact holds.objects_perm
  · simp only [liveObjects, hkeys]
    exact congrArg (· + 1) holds.count

theorem Holds.free (holds : Holds p s) (ptr : Nat) : Holds p (s.free ptr).2 := by
  simp only [JobSizePool.free]
  split
  · exact holds
  split
  · exact holds
  split
  · exact holds
  split
  · rename_i live
    obtain ⟨size, found⟩ := Option.isSome_iff_exists.mp (AList.lookup_isSome.mpr live)
    have hkeys : s.allocations.keys.Perm (ptr :: (s.allocations.erase ptr).keys) :=
      (entries_perm_erase found).map Sigma.fst
    refine ⟨holds.geometry, holds.detached, holds.spans, ?_, holds.capacity, ?_⟩
    · refine List.Perm.trans ?_ holds.objects_perm
      simp only [List.append_assoc]
      exact List.Perm.append_left _ hkeys.symm
    · have hlen := hkeys.length_eq
      have hcount := holds.count
      simp only [liveObjects, List.length_cons] at *
      omega
  · exact holds

theorem Holds.init (c : JobMemSize) : Holds p (JobSizePool.init c p) := by
  refine ⟨?_, fun _ => rfl, by simp [JobSizePool.init], ?_, rfl, rfl⟩
  · simp only [JobSizePool.init]
    intro h
    split at h
    · cases h
    rename_i hps
    split at h
    · cases h
    rename_i halign
    exact ⟨(Decidable.not_not.mp hps).symm, Decidable.not_not.mp halign⟩
  · exact List.Perm.refl _

/-- The state of the pool after growing by a span at `addr`. -/
def grown (s : JobSizePool) (addr : Nat) : JobSizePool :=
  { s with
    pageAllocations := s.pageAllocations ++
      [⟨addr, s.sizeClass.pagesPerSpan, s.sizeClass.objectsPerSpan⟩]
    freeObjects := s.freeObjects ++
      objectsAt addr s.sizeClass.objectSize s.sizeClass.objectsPerSpan
    objectCapacity := s.objectCapacity + s.sizeClass.objectsPerSpan }

/-- `grow` fails and changes nothing, or adds the span that the page pool granted. -/
theorem grow_cases (ready : p.Ready) (s : JobSizePool) :
    s.grow p = (false, s, p) ∨ ∃ addr q, s.attached = true ∧
      JobPagePool.Grants p s.sizeClass.pagesPerSpan addr q ∧ s.grow p = (true, s.grown addr, q) := by
  simp only [grow]
  split
  · exact Or.inl rfl
  rename_i attached
  split
  · exact Or.inl rfl
  split
  · exact Or.inl rfl
  rcases ready.allocPages s.sizeClass.pagesPerSpan with h | h
  · refine Or.inl ?_
    rw [h]
    rfl
  · have hne : (p.allocPages s.sizeClass.pagesPerSpan).1 ≠ nullptr := by
      obtain ⟨e, _, _, hentries, hptr⟩ := h.block
      have := (h.ready.block (e := e) (by rw [hentries]; exact List.mem_cons_self)).ptr_pos
      rw [hptr]
      exact Nat.ne_of_gt this
    refine Or.inr ⟨_, _, by simpa using attached, h, ?_⟩
    simp [hne, buildFreeList, grown, Nat.ne_of_gt (objectsPerSpan_pos s.sizeClass)]

theorem Holds.grown (holds : Holds p s) {addr : Nat} (attached : s.attached = true)
    (grant : JobPagePool.Grants p s.sizeClass.pagesPerSpan addr q) : Holds q (s.grown addr) := by
  have old := holds.grants grant
  obtain ⟨e, hcount, _, hentries, hptr⟩ := grant.block
  have hobjects : (s.grown addr).objects =
      s.objects ++ objectsAt addr s.sizeClass.objectSize s.sizeClass.objectsPerSpan := by
    simp [objects, JobSizePool.grown]
  refine ⟨old.geometry, fun h => ?_, ?_, ?_, ?_, holds.count⟩
  · have : s.attached = false := h
    rw [attached] at this
    cases this
  · intro a ha
    rcases List.mem_append.mp ha with ha | ha
    · exact old.spans a ha
    · rw [List.mem_singleton.mp ha]
      refine ⟨rfl, rfl, e, ?_, hptr, hcount⟩
      rw [hentries]
      exact List.mem_cons_self
  · rw [hobjects]
    have hfree : (s.grown addr).freeObjects ++ (s.grown addr).liveObjects =
        s.freeObjects ++ (objectsAt addr s.sizeClass.objectSize s.sizeClass.objectsPerSpan ++
          s.liveObjects) := List.append_assoc _ _ _
    rw [hfree]
    refine (List.Perm.append_left _ List.perm_append_comm).trans ?_
    rw [← List.append_assoc]
    exact List.Perm.append_right _ holds.objects_perm
  · rw [hobjects, List.length_append, ← holds.capacity]
    simp [JobSizePool.grown, objectsAt]

theorem popObject_spanAddrs (s : JobSizePool) (size : Nat) :
    (s.popObject size).2.spanAddrs = s.spanAddrs := by
  simp only [popObject]
  split
  · rfl
  · split <;> rfl

theorem free_spanAddrs (s : JobSizePool) (ptr : Nat) : (s.free ptr).2.spanAddrs = s.spanAddrs := by
  simp only [free]
  split
  · rfl
  split
  · rfl
  split
  · rfl
  split <;> rfl

/-- A call of `alloc` leaves the page pool and the spans alone, or grows by one span. -/
theorem alloc_cases (ready : p.Ready) (holds : Holds p s) (size alignment : Nat) :
    (∃ t, (s.alloc p size alignment).2 = (t, p) ∧ Holds p t ∧ t.spanAddrs = s.spanAddrs) ∨
      ∃ t q addr, (s.alloc p size alignment).2 = (t, q) ∧ Holds q t ∧
        JobPagePool.Grants p s.sizeClass.pagesPerSpan addr q ∧
        t.spanAddrs = s.spanAddrs ++ [addr] := by
  simp only [alloc]
  split
  · exact Or.inl ⟨s, rfl, holds, rfl⟩
  split
  · exact Or.inl ⟨s, rfl, holds, rfl⟩
  split
  · rcases grow_cases ready s with h | ⟨addr, q, attached, grant, h⟩
    · rw [h]
      exact Or.inl ⟨s, rfl, holds, rfl⟩
    · rw [h]
      refine Or.inr ⟨((s.grown addr).popObject size).2, q, addr, rfl,
        (holds.grown attached grant).popObject size, grant, ?_⟩
      rw [popObject_spanAddrs]
      simp [spanAddrs, grown]
  · exact Or.inl ⟨(s.popObject size).2, rfl, holds.popObject size, popObject_spanAddrs s size⟩

/-- The loop of `clear` leaves every block that is not at one of the span addresses alone. -/
theorem freeSpans_spec (spans : List SpanAllocation) :
    ∀ p : JobPagePool, p.Ready → (freeSpans spans p).Ready ∧
      JobPagePool.SameFrame p (freeSpans spans p) ∧
      ∀ e ∈ p.allocations.entries, p.ptrAtPage e.1 ∉ spans.map SpanAllocation.addr →
        e ∈ (freeSpans spans p).allocations.entries := by
  induction spans with
  | nil => exact fun p ready => ⟨ready, JobPagePool.SameFrame.refl p, fun e he _ => he⟩
  | cons a spans ih =>
    intro p ready
    by_cases hnull : a.addr = nullptr
    · have same : freeSpans (a :: spans) p = freeSpans spans p := by simp [freeSpans, hnull]
      obtain ⟨h1, h2, h3⟩ := ih p ready
      rw [same]
      refine ⟨h1, h2, fun e he hout => h3 e he (fun hmem => hout ?_)⟩
      exact List.mem_cons_of_mem _ hmem
    · have next : freeSpans (a :: spans) p = freeSpans spans (p.free a.addr).2 := by
        simp [freeSpans, hnull]
      obtain ⟨ready', frame, _, kept⟩ := ready.free a.addr
      obtain ⟨h1, h2, h3⟩ := ih (p.free a.addr).2 ready'
      rw [next]
      refine ⟨h1, frame.trans h2, fun e he hout => ?_⟩
      rw [List.map_cons, List.mem_cons, not_or] at hout
      refine h3 e (kept e he hout.1) ?_
      rw [frame.ptrAtPage]
      exact hout.2

theorem Holds.cleared (holds : Holds p s) {r : JobPagePool} (frame : JobPagePool.SameFrame p q) :
    Holds q (s.clear r).1 := by
  refine ⟨?_, fun _ => rfl, by simp [JobSizePool.clear], List.Perm.refl _, rfl, rfl⟩
  rw [frame.pageSize_eq]
  exact holds.geometry

end JobSizePool

end JobIo
