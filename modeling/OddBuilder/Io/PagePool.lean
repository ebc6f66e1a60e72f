import OddBuilder.Io.RangePoolRuns

/-!
# The page pool

Runs of allocator pages inside one extent of a mapping. Page geometry and byte
geometry are kept side by side: a span stores its page indices and its byte
range, and two spans are joined only when both are adjacent. `alloc` rounds a
byte request up to pages, `allocPages` asks for pages directly.
-/

namespace JobIo

open Intervals

structure JobMemExtent where
  id : Nat
  mmap : JobMmap
  range : JobMemRange

namespace JobMemExtent

def size (e : JobMemExtent) : Nat := e.range.size

def mapped (e : JobMemExtent) : Bool :=
  e.mmap.addr != nullptr && decide (e.range.last ≤ e.mmap.mapLength) &&
    e.mmap.mappedRanges.any (fun mapped => mapped.contains e.range)

def addr (e : JobMemExtent) : Nat := e.mmap.addr + e.range.first

def containsPtr (e : JobMemExtent) (ptr : Nat) : Bool :=
  if ptr == nullptr || !e.mapped then false
  else if e.size > sizeMax - e.addr then false
  else decide (ptr ≥ e.addr) && decide (ptr < e.addr + e.size)

def offsetOf (e : JobMemExtent) (ptr : Nat) : Nat := ptr - e.addr

def ptrAt (e : JobMemExtent) (offset : Nat) : Nat := e.addr + offset

end JobMemExtent

structure JobMemPage where
  id : Nat
  extentId : Nat
  index : Nat
  pageSize : Nat
  range : JobMemRange

/-- Largest page index minus one is the last usable one; the value itself means "no page". -/
def kInvalidIndex : Nat := sizeMax

structure JobMemSpan where
  id : Nat
  extentId : Nat
  firstPageIndex : Nat
  pageCount : Nat
  pageSize : Nat
  range : JobMemRange
  range_size : range.size = pageCount * pageSize

namespace JobMemSpan

def endPageIndex (s : JobMemSpan) : Nat := s.firstPageIndex + s.pageCount

instance : Bounds JobMemSpan := ⟨firstPageIndex, endPageIndex⟩

@[simp] theorem lo_eq (s : JobMemSpan) : lo s = s.firstPageIndex := rfl

@[simp] theorem hi_eq (s : JobMemSpan) : hi s = s.firstPageIndex + s.pageCount := rfl

def size (s : JobMemSpan) : Nat := s.range.size

def sameExtent (s other : JobMemSpan) : Bool := s.extentId == other.extentId

def adjacent (s other : JobMemSpan) : Bool :=
  if !s.sameExtent other || s.pageSize != other.pageSize then false
  else
    let pageAdjacent := s.endPageIndex == other.firstPageIndex ||
      other.endPageIndex == s.firstPageIndex
    pageAdjacent && s.range.adjacent other.range

end JobMemSpan

/-- Value type of the page pool's `m_allocations`. -/
structure PageAllocation where
  firstPageIndex : Nat
  pageCount : Nat
  requestedSize : Nat
deriving DecidableEq, Repr

/-- Entry of `m_allocations`: first page of a live block and its allocation. -/
abbrev PageBlock : Type := (_ : Nat) × PageAllocation

instance : Bounds PageBlock := ⟨fun e => e.1, fun e => e.1 + e.2.pageCount⟩

structure JobPagePool where
  extent : Option JobMemExtent
  pageSize : Nat
  pages : List JobMemPage
  freeSpans : List JobMemSpan
  allocations : AList (fun _ : Nat => PageAllocation)
  allocatedPages : Nat
  allocatedBytes : Nat
  nextSpanId : Nat

namespace JobPagePool

def pagesForSize (size pageSize : Nat) : Nat :=
  if size == 0 || pageSize == 0 then 0
  else size / pageSize + (if size % pageSize ≠ 0 then 1 else 0)

def validPageGeometry (extent : JobMemExtent) (pageSize : Nat) : Bool :=
  if pageSize == 0 || !JobMemRange.validAlignment pageSize then false
  else if !extent.mapped || extent.size == 0 then false
  else if extent.size % pageSize ≠ 0 then false
  else if extent.addr % pageSize ≠ 0 then false
  else
    let count := extent.size / pageSize
    if count == 0 then false
    else if count - 1 > kInvalidIndex - 1 then false
    else true

/-- `makeSpan` for the span id it draws from `m_nextSpanId`. -/
def makeSpan (extent : JobMemExtent) (pageSize id firstPageIndex pageCount : Nat) : JobMemSpan where
  id := id
  extentId := extent.id
  firstPageIndex := firstPageIndex
  pageCount := pageCount
  pageSize := pageSize
  range := JobMemRange.fromSize (extent.range.first + firstPageIndex * pageSize)
    (pageCount * pageSize)
  range_size := by simp [JobMemRange.size]

/-- One turn of the search loop: the first page of the request inside a free span. -/
def fitSpan (base pageSize pageCount alignment : Nat) (span : JobMemSpan) : Option Nat :=
  let mask := alignment - 1
  if span.pageCount < pageCount then none
  else if span.firstPageIndex > sizeMax / pageSize then none
  else
    let localOffset := span.firstPageIndex * pageSize
    if base > sizeMax - localOffset then none
    else
      let firstAddress := base + localOffset
      if firstAddress > sizeMax - mask then none
      else
        let alignedAddress := (firstAddress + mask) &&& (sizeMax ^^^ mask)
        if alignedAddress < base then none
        else
          let alignedOffset := alignedAddress - base
          if alignedOffset > sizeMax then none
          else if alignedOffset % pageSize ≠ 0 then none
          else
            let candidate := alignedOffset / pageSize
            if candidate < span.firstPageIndex then none
            else if candidate ≥ span.endPageIndex then none
            else if pageCount > span.endPageIndex - candidate then none
            else some candidate

def findFreeSpan (p : JobPagePool) (pageCount alignment : Nat) : Option (Nat × Nat) :=
  match p.extent with
  | none => none
  | some extent =>
    if !extent.mapped || p.pageSize == 0 then none
    else if pageCount == 0 || !JobMemRange.validAlignment alignment then none
    else firstFit (fitSpan extent.addr p.pageSize pageCount alignment) 0 p.freeSpans

/-- `splitSpan`, with the next span id before and after. -/
def splitSpan (extent : JobMemExtent) (pageSize nextSpanId : Nat) (spans : List JobMemSpan)
    (spanIndex firstPageIndex pageCount : Nat) : List JobMemSpan × Nat :=
  match spans[spanIndex]? with
  | none => (spans, nextSpanId)
  | some original =>
    let allocationEnd := firstPageIndex + pageCount
    let hasPrefix := decide (original.firstPageIndex < firstPageIndex)
    let hasSuffix := decide (allocationEnd < original.endPageIndex)
    let front := fun id =>
      makeSpan extent pageSize id original.firstPageIndex (firstPageIndex - original.firstPageIndex)
    let back := fun id =>
      makeSpan extent pageSize id allocationEnd (original.endPageIndex - allocationEnd)
    if !hasPrefix && !hasSuffix then (spans.eraseIdx spanIndex, nextSpanId)
    else if hasPrefix && !hasSuffix then (spans.set spanIndex (front nextSpanId), nextSpanId + 1)
    else if !hasPrefix && hasSuffix then (spans.set spanIndex (back nextSpanId), nextSpanId + 1)
    else
      ((spans.insertIdx (spanIndex + 1) (back nextSpanId)).set spanIndex (front (nextSpanId + 1)),
        nextSpanId + 2)

/-- Join of the compaction loop: adjacent spans become one span with a new id. -/
def joinSpans (extent : JobMemExtent) (pageSize nextSpanId : Nat) (current next : JobMemSpan) :
    Option (JobMemSpan × Nat) :=
  if current.adjacent next then
    some (makeSpan extent pageSize nextSpanId current.firstPageIndex
      (current.pageCount + next.pageCount), nextSpanId + 1)
  else none

def coalesceSpans (extent : JobMemExtent) (pageSize nextSpanId : Nat) (spans : List JobMemSpan) :
    List JobMemSpan × Nat :=
  if spans.length < 2 then (spans, nextSpanId)
  else
    compact (joinSpans extent pageSize) nextSpanId
      (spans.insertionSort (fun lhs rhs => lo lhs ≤ lo rhs))

def insertFreeSpan (extent : JobMemExtent) (pageSize nextSpanId : Nat) (spans : List JobMemSpan)
    (span : JobMemSpan) : List JobMemSpan × Nat :=
  coalesceSpans extent pageSize nextSpanId (spans ++ [span])

def owns (p : JobPagePool) (ptr : Nat) : Bool :=
  ptr != nullptr && p.extent.any (fun extent => extent.mapped && extent.containsPtr ptr)

def offsetOf (p : JobPagePool) (ptr : Nat) : Nat :=
  match p.extent with
  | none => sizeMax
  | some extent => if !p.owns ptr then sizeMax else extent.offsetOf ptr

def pageIndexOf (p : JobPagePool) (ptr : Nat) : Nat :=
  if p.pageSize == 0 then kInvalidIndex
  else
    let offset := p.offsetOf ptr
    if offset == sizeMax then kInvalidIndex else offset / p.pageSize

def ptrAtPage (p : JobPagePool) (pageIndex : Nat) : Nat :=
  match p.extent with
  | none => nullptr
  | some extent =>
    if !extent.mapped || decide (pageIndex ≥ p.pages.length) then nullptr
    else if pageIndex > sizeMax / p.pageSize then nullptr
    else extent.ptrAt (pageIndex * p.pageSize)

/-- Common part of `alloc` and `allocPages`: find a span, record the block, split the span. -/
def takePages (p : JobPagePool) (extent : JobMemExtent) (pageCount alignment requestedSize : Nat) :
    Nat × JobPagePool :=
  match p.findFreeSpan pageCount alignment with
  | none => (nullptr, p)
  | some (spanIndex, firstPageIndex) =>
    if firstPageIndex ∈ p.allocations then (nullptr, p)
    else
      let split := splitSpan extent p.pageSize p.nextSpanId p.freeSpans spanIndex firstPageIndex
        pageCount
      let p := { p with
        allocations := p.allocations.insert firstPageIndex
          ⟨firstPageIndex, pageCount, requestedSize⟩
        freeSpans := split.1
        nextSpanId := split.2
        allocatedPages := p.allocatedPages + pageCount
        allocatedBytes := p.allocatedBytes + pageCount * p.pageSize }
      (p.ptrAtPage firstPageIndex, p)

def alloc (p : JobPagePool) (size alignment : Nat) : Nat × JobPagePool :=
  if size == 0 || !JobMemRange.validAlignment alignment then (nullptr, p)
  else
    match p.extent with
    | none => (nullptr, p)
    | some extent =>
      if !extent.mapped || p.pageSize == 0 then (nullptr, p)
      else
        let requiredPages := pagesForSize size p.pageSize
        if requiredPages == 0 then (nullptr, p)
        else p.takePages extent requiredPages alignment size

def allocPages (p : JobPagePool) (pageCount : Nat) : Nat × JobPagePool :=
  if pageCount == 0 then (nullptr, p)
  else
    match p.extent with
    | none => (nullptr, p)
    | some extent =>
      if !extent.mapped || p.pageSize == 0 then (nullptr, p)
      else if pageCount > sizeMax / p.pageSize then (nullptr, p)
      else p.takePages extent pageCount p.pageSize (pageCount * p.pageSize)

def free (p : JobPagePool) (ptr : Nat) : Bool × JobPagePool :=
  if ptr == nullptr then (false, p)
  else
    match p.extent with
    | none => (false, p)
    | some extent =>
      if !p.owns ptr || p.pageSize == 0 then (false, p)
      else
        let offset := p.offsetOf ptr
        if offset == sizeMax then (false, p)
        else if offset % p.pageSize ≠ 0 then (false, p)
        else
          let pageIndex := p.pageIndexOf ptr
          if pageIndex == kInvalidIndex then (false, p)
          else
            match p.allocations.lookup pageIndex with
            | none => (false, p)
            | some allocation =>
              let allocationPages := allocation.pageCount
              let span := makeSpan extent p.pageSize p.nextSpanId pageIndex allocationPages
              let spans := insertFreeSpan extent p.pageSize (p.nextSpanId + 1) p.freeSpans span
              (true, { p with
                freeSpans := spans.1
                nextSpanId := spans.2
                allocations := p.allocations.erase pageIndex
                allocatedPages := p.allocatedPages - allocationPages
                allocatedBytes := p.allocatedBytes - allocationPages * p.pageSize })

def clear (p : JobPagePool) : JobPagePool :=
  let p := { p with allocations := ∅, freeSpans := [], allocatedPages := 0, allocatedBytes := 0 }
  match p.extent with
  | none => p
  | some extent =>
    if !extent.mapped || p.pageSize == 0 then p
    else if !validPageGeometry extent p.pageSize then p
    else if p.pages.isEmpty then p
    else
      { p with
        freeSpans := [makeSpan extent p.pageSize p.nextSpanId 0 p.pages.length]
        nextSpanId := p.nextSpanId + 1 }

/-- The page descriptors of `buildPages`. -/
def makePages (extent : JobMemExtent) (pageSize count : Nat) : List JobMemPage :=
  (List.range count).map fun index =>
    ⟨index, extent.id, index, pageSize,
      JobMemRange.fromSize (extent.range.first + index * pageSize) pageSize⟩

def init (extent : Option JobMemExtent) (pageSize : Nat) : JobPagePool :=
  let unset : JobPagePool := ⟨none, 0, [], [], ∅, 0, 0, 0⟩
  match extent with
  | none => unset
  | some extent =>
    if !validPageGeometry extent pageSize then unset
    else
      let count := extent.size / pageSize
      ⟨some extent, pageSize, makePages extent pageSize count,
        [makeSpan extent pageSize 0 0 count], ∅, 0, 0, 1⟩

def pageCount (p : JobPagePool) : Nat := p.pages.length

def availablePages (p : JobPagePool) : Nat := (p.freeSpans.map JobMemSpan.pageCount).sum

end JobPagePool

end JobIo
