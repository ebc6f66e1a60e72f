import OddBuilder.Io.MemRange
import Mathlib.Data.List.AList

/-!
# The range pool

First-fit allocation of byte blocks from one shared mapping. The free list is
a vector of ranges that `alloc` splits in place and `free` extends, sorts and
compacts; live blocks are kept in a map from offset to size. The pool holds a
shared pointer to its mapping, so the mapping inside the pool state is the
current state of the shared object, whoever changed it last.
-/

namespace JobIo

open Intervals JobMemRange

/-- Entry of `m_allocations`: offset and size of a live block. -/
abbrev RangeBlock : Type := (_ : Nat) × Nat

instance : Bounds RangeBlock := ⟨fun e => e.1, fun e => e.1 + e.2⟩

structure JobRangePool where
  mmap : Option JobMmap
  freeRanges : List JobMemRange
  allocations : AList (fun _ : Nat => Nat)
  allocatedBytes : Nat

namespace JobRangePool

def alignUp (value alignment : Nat) : Nat :=
  if !JobMemRange.validAlignment alignment then sizeMax
  else
    let mask := alignment - 1
    if value > sizeMax - mask then sizeMax
    else (value + mask) &&& (sizeMax ^^^ mask)

/-- One turn of the search loop: the aligned offset at which the request fits into a range. -/
def fitRange (base size alignment : Nat) (range : JobMemRange) : Option Nat :=
  if range.empty then none
  else if base > sizeMax - range.first then none
  else
    let firstAddress := base + range.first
    if firstAddress > sizeMax then none
    else
      let alignedAddress := alignUp firstAddress alignment
      if alignedAddress == sizeMax then none
      else if alignedAddress < base then none
      else
        let alignedOffset := alignedAddress - base
        if alignedOffset > sizeMax then none
        else if alignedOffset < range.first || alignedOffset ≥ range.last then none
        else if size > range.last - alignedOffset then none
        else some alignedOffset

def findFreeRange (p : JobRangePool) (size alignment : Nat) : Option (Nat × Nat) :=
  match p.mmap with
  | none => none
  | some m =>
    if !m.isValid || m.addr == nullptr then none
    else if size == 0 || !JobMemRange.validAlignment alignment then none
    else firstFit (fitRange m.addr size alignment) 0 p.freeRanges

def splitRange (ranges : List JobMemRange) (rangeIndex offset size : Nat) : List JobMemRange :=
  match ranges[rangeIndex]? with
  | none => ranges
  | some original =>
    let allocationLast := offset + size
    let hasPrefix := decide (original.first < offset)
    let hasSuffix := decide (allocationLast < original.last)
    if !hasPrefix && !hasSuffix then ranges.eraseIdx rangeIndex
    else if hasPrefix && !hasSuffix then
      ranges.set rangeIndex (JobMemRange.ofBounds original.first offset)
    else if !hasPrefix && hasSuffix then
      ranges.set rangeIndex (JobMemRange.ofBounds allocationLast original.last)
    else
      (ranges.insertIdx (rangeIndex + 1) (JobMemRange.ofBounds allocationLast original.last)).set
        rangeIndex (JobMemRange.ofBounds original.first offset)

def coalesceRanges (ranges : List JobMemRange) : List JobMemRange :=
  if ranges.length < 2 then ranges
  else
    (compact (fun (_ : Unit) current next => (current.tryMerge next).map (·, ())) ()
      (ranges.insertionSort (fun lhs rhs => lo lhs ≤ lo rhs))).1

def insertFreeRange (ranges : List JobMemRange) (range : JobMemRange) : List JobMemRange :=
  if range.empty then ranges else coalesceRanges (ranges ++ [range])

def offsetOf (p : JobRangePool) (ptr : Nat) : Nat :=
  match p.mmap with
  | none => sizeMax
  | some m =>
    if ptr == nullptr || m.addr == nullptr then sizeMax
    else if ptr < m.addr then sizeMax
    else
      let distance := ptr - m.addr
      if distance ≥ m.mapLength then sizeMax
      else if distance > sizeMax then sizeMax
      else distance

def ptrAt (p : JobRangePool) (offset : Nat) : Nat :=
  match p.mmap with
  | none => nullptr
  | some m => if m.addr == nullptr || offset ≥ m.mapLength then nullptr else m.addr + offset

def owns (p : JobRangePool) (ptr : Nat) : Bool :=
  match p.mmap with
  | none => false
  | some m =>
    if ptr == nullptr || !m.isValid || m.addr == nullptr then false
    else if ptr < m.addr then false
    else
      let distance := ptr - m.addr
      if distance ≥ m.mapLength then false
      else m.mappedRanges.any (fun range => range.containsOffset distance)

def alloc (p : JobRangePool) (size alignment : Nat) : Nat × JobRangePool :=
  if size == 0 || !JobMemRange.validAlignment alignment then (nullptr, p)
  else if !(p.mmap.any JobMmap.isValid) then (nullptr, p)
  else
    match p.findFreeRange size alignment with
    | none => (nullptr, p)
    | some (rangeIndex, offset) =>
      if offset ∈ p.allocations then (nullptr, p)
      else
        let p := { p with
          allocations := p.allocations.insert offset size
          freeRanges := splitRange p.freeRanges rangeIndex offset size
          allocatedBytes := p.allocatedBytes + size }
        (p.ptrAt offset, p)

def free (p : JobRangePool) (ptr : Nat) : Bool × JobRangePool :=
  if ptr == nullptr then (false, p)
  else if !p.owns ptr then (false, p)
  else
    let offset := p.offsetOf ptr
    if offset == sizeMax then (false, p)
    else
      match p.allocations.lookup offset with
      | none => (false, p)
      | some allocationSize =>
        (true, { p with
          freeRanges := insertFreeRange p.freeRanges (JobMemRange.fromSize offset allocationSize)
          allocations := p.allocations.erase offset
          allocatedBytes := p.allocatedBytes - allocationSize })

/-- The mapped ranges when they are the one range `[0, mapLength)`, as `init` and `clear` ask. -/
def wholeRange (m : JobMmap) : Option JobMemRange :=
  match m.mappedRanges with
  | [mapped] => if mapped.first ≠ 0 || mapped.last ≠ m.mapLength then none else some mapped
  | _ => none

def clear (p : JobRangePool) : JobRangePool :=
  let p := { p with allocations := ∅, allocatedBytes := 0, freeRanges := [] }
  match p.mmap with
  | none => p
  | some m =>
    if !m.isValid then p
    else
      match wholeRange m with
      | none => p
      | some mapped => { p with freeRanges := [mapped] }

def init (mmap : Option JobMmap) : JobRangePool :=
  match mmap with
  | none => ⟨none, [], ∅, 0⟩
  | some m =>
    if !m.isValid || m.addr == nullptr then ⟨none, [], ∅, 0⟩
    else
      match wholeRange m with
      | none => ⟨none, [], ∅, 0⟩
      | some mapped => ⟨some m, [mapped], ∅, 0⟩

def size (p : JobRangePool) : Nat :=
  match p.mmap with
  | none => 0
  | some m => m.mappedSize

def allocated (p : JobRangePool) : Nat := p.allocatedBytes

def available (p : JobRangePool) : Nat := (p.freeRanges.map JobMemRange.size).sum

/-- The free list is separated, and together with the live blocks it partitions `[0, n)`. -/
structure Bookkeeping (p : JobRangePool) (n : Nat) : Prop where
  separated : Separated p.freeRanges
  sizes : ∀ e ∈ p.allocations.entries, 0 < e.2
  partition : Partition n p.freeRanges p.allocations.entries
  bytes : p.allocatedBytes = total p.allocations.entries

theorem fitRange_some {base size alignment offset : Nat} {range : JobMemRange}
    (h : fitRange base size alignment range = some offset) :
    range.first ≤ offset ∧ offset < range.last ∧ offset + size ≤ range.last := by
  have hfits : ∀ candidate, range.first ≤ candidate ∧ candidate < range.last →
      ¬ size > range.last - candidate → range.first ≤ candidate ∧ candidate < range.last ∧
        candidate + size ≤ range.last := by omega
  simp only [fitRange, Option.ite_none_left_eq_some, Option.some.injEq, Bool.or_eq_true,
    decide_eq_true_eq, not_or, Nat.not_lt, Nat.not_le] at h
  obtain ⟨-, -, -, -, -, -, bounds, room, rfl⟩ := h
  exact hfits _ bounds (Nat.not_lt.mpr room)

/-- All four ways of splitting put the leftover pieces where the range was. -/
theorem splitRange_eq (before after : List JobMemRange) (original : JobMemRange)
    (offset size : Nat) :
    splitRange (before ++ original :: after) before.length offset size =
      before ++ (carve original offset (offset + size) (ofBounds original.first offset)
        (ofBounds (offset + size) original.last) ++ after) := by
  simp only [splitRange, getElem?_cell, carve]
  by_cases hp : original.first < offset
  · by_cases hs : offset + size < original.last
    · simp [hp, hs, insertIdx_cell]
    · simp [hp, hs]
  · by_cases hs : offset + size < original.last
    · simp [hp, hs]
    · simp [hp, hs, eraseIdx_cell]

theorem split_cut {original : JobMemRange} {offset size : Nat} (hs : 0 < size)
    (hle : original.first ≤ offset) (hfit : offset + size ≤ original.last) :
    Cut original offset (offset + size) (ofBounds original.first offset)
      (ofBounds (offset + size) original.last) where
  start := hle
  nonempty := by omega
  stop := hfit
  front_bounds := fun h => ⟨rfl, ofBounds_last (Nat.le_of_lt h)⟩
  back_bounds := fun h => ⟨rfl, ofBounds_last (Nat.le_of_lt h)⟩

end JobRangePool

end JobIo
