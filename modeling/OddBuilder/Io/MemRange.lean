import Mathlib.Data.Nat.Bitwise
import OddBuilder.Library.Alignment
import OddBuilder.Library.Intervals

/-!
# Byte ranges

`JobMemRange` with its contract `first <= last` as a field. Machine words are
naturals; the places where the source guards against `std::size_t` overflow
keep their guards, and every unguarded sum below is one that a contract of the
source or an invariant of the caller keeps under `sizeMax`.
-/

namespace JobIo

open Intervals Alignment

/-- The largest `std::size_t` (and `std::uintptr_t`). -/
def sizeMax : Nat := 2 ^ 64 - 1

def nullptr : Nat := 0

structure JobMemRange where
  first : Nat
  last : Nat
  ordered : first ≤ last
deriving DecidableEq, Repr

namespace JobMemRange

variable {alignment value : Nat} {a b : JobMemRange}

instance : Bounds JobMemRange := ⟨first, last⟩

@[ext] theorem ext (hf : a.first = b.first) (hl : a.last = b.last) : a = b := by
  cases a
  cases b
  simp_all

/-- The two-argument constructor. A call that breaks its contract ends the program, so the
value given for it here is never used. -/
def ofBounds (first last : Nat) : JobMemRange := ⟨first, max first last, Nat.le_max_left _ _⟩

theorem ofBounds_last {first last : Nat} (h : first ≤ last) : (ofBounds first last).last = last :=
  Nat.max_eq_right h

def fromSize (first size : Nat) : JobMemRange := ofBounds first (first + size)

@[simp] theorem fromSize_first (first size : Nat) : (fromSize first size).first = first := rfl

@[simp] theorem fromSize_last (first size : Nat) : (fromSize first size).last = first + size :=
  ofBounds_last (Nat.le_add_right _ _)

def size (r : JobMemRange) : Nat := r.last - r.first

def empty (r : JobMemRange) : Bool := r.first == r.last

def containsOffset (r : JobMemRange) (offset : Nat) : Bool :=
  decide (offset ≥ r.first) && decide (offset < r.last)

def contains (r other : JobMemRange) : Bool :=
  decide (other.first ≥ r.first) && decide (other.last ≤ r.last)

def overlaps (r other : JobMemRange) : Bool :=
  decide (r.first < other.last) && decide (other.first < r.last)

def adjacent (r other : JobMemRange) : Bool :=
  r.last == other.first || other.last == r.first

def mergeable (r other : JobMemRange) : Bool := r.overlaps other || r.adjacent other

def merged (r other : JobMemRange) : JobMemRange :=
  let first := if r.first < other.first then r.first else other.first
  let last := if r.last > other.last then r.last else other.last
  ofBounds first last

def validAlignment (alignment : Nat) : Bool :=
  alignment != 0 && (alignment &&& (alignment - 1)) == 0

/-- `value & ~(alignment - 1)` on 64-bit words. -/
def alignDown (value alignment : Nat) : Nat := value &&& (sizeMax ^^^ (alignment - 1))

def alignUp (value alignment : Nat) : Nat :=
  (value + alignment - 1) &&& (sizeMax ^^^ (alignment - 1))

def alignedInward (r : JobMemRange) (alignment : Nat) : JobMemRange :=
  if r.empty then r
  else
    let first := alignUp r.first alignment
    let last := alignDown r.last alignment
    if first ≥ last then
      let empty := if first < r.last then first else r.last
      ofBounds empty empty
    else ofBounds first last

def alignedOutward (r : JobMemRange) (alignment : Nat) : JobMemRange :=
  if r.empty then r
  else ofBounds (alignDown r.first alignment) (alignUp r.last alignment)

theorem validAlignment_iff :
    validAlignment alignment = true ↔ alignment.isPowerOfTwo := by
  rw [← Nat.ne_zero_and_sub_one_eq_zero_iff_isPowerOfTwo]
  simp [validAlignment]

theorem lt_word (value : Nat) : value < 2 ^ 64 ↔ value ≤ sizeMax := by
  unfold sizeMax
  omega

/-- The mask of the source, on a word that is a power of two. -/
theorem mask_eq (ha : validAlignment alignment = true) (hv : value ≤ sizeMax) :
    value &&& (sizeMax ^^^ (alignment - 1)) = down value alignment := by
  obtain ⟨k, rfl⟩ := validAlignment_iff.1 ha
  exact and_low_cleared ((lt_word value).2 hv) k

theorem alignDown_eq (ha : validAlignment alignment = true) (hv : value ≤ sizeMax) :
    alignDown value alignment = down value alignment :=
  mask_eq ha hv

theorem alignUp_eq (ha : validAlignment alignment = true) (hv : value + (alignment - 1) ≤ sizeMax) :
    alignUp value alignment = up value alignment := by
  have hpos := Nat.pos_of_isPowerOfTwo (validAlignment_iff.1 ha)
  have hsum : value + alignment - 1 = value + (alignment - 1) := by omega
  rw [alignUp, hsum]
  exact mask_eq ha hv

/-- The guard in front of a rounded sum is false exactly when the rounded value is a word. -/
theorem sum_guard (hv : 0 < value) (ha : validAlignment alignment = true) :
    value > sizeMax - (alignment - 1) ↔ sizeMax < up value alignment := by
  have hpower := validAlignment_iff.1 ha
  have hbound := up_lt_add (Nat.pos_of_isPowerOfTwo hpower) value
  constructor
  · intro hlarge
    have hsum : 2 ^ 64 ≤ value + (alignment - 1) := by
      have := lt_word (value + (alignment - 1))
      omega
    have hout := two_pow_le_up hpower hv hsum
    have := lt_word (up value alignment)
    omega
  · intro hout
    omega

theorem masked_sum (hv : 0 < value) (ha : validAlignment alignment = true)
    (h : ¬ value > sizeMax - (alignment - 1)) :
    (value + (alignment - 1)) &&& (sizeMax ^^^ (alignment - 1)) = up value alignment := by
  rw [mask_eq ha (by omega)]
  rfl

theorem containsOffset_iff (r : JobMemRange) (x : Nat) :
    r.containsOffset x = true ↔ Covers r x := by
  simp [containsOffset, Covers, Bounds.lo, Bounds.hi]

@[simp] theorem lo_eq (r : JobMemRange) : lo r = r.first := rfl

@[simp] theorem hi_eq (r : JobMemRange) : hi r = r.last := rfl

/-- The join of `coalesceRanges`: merge the two ranges when `mergeable` says so. -/
def tryMerge (current next : JobMemRange) : Option JobMemRange :=
  if current.mergeable next then some (current.merged next) else none

theorem mergeable_iff (a b : JobMemRange) : a.mergeable b = true ↔
    (a.first < b.last ∧ b.first < a.last) ∨ a.last = b.first ∨ b.last = a.first := by
  simp [mergeable, overlaps, adjacent]

theorem tryMerge_touching (na : a.first < a.last) (nb : b.first < b.last)
    (touch : a.last = b.first) :
    ∃ m, tryMerge a b = some m ∧ m.first = a.first ∧ m.last = b.last := by
  have hm : a.mergeable b = true := (mergeable_iff a b).mpr (Or.inr (Or.inl touch))
  refine ⟨a.merged b, by rw [tryMerge, if_pos hm], ?_, ?_⟩
  · simp only [merged, ofBounds]
    rw [if_pos (by omega)]
  · simp only [merged, ofBounds]
    rw [if_pos (by omega), if_neg (by omega)]
    omega

theorem tryMerge_gap (na : a.first < a.last) (nb : b.first < b.last) (gap : a.last < b.first) :
    tryMerge a b = none := by
  have hm : ¬ a.mergeable b = true := by
    rw [mergeable_iff]
    omega
  rw [tryMerge, if_neg hm]

end JobMemRange

end JobIo

/-!
## Shared mappings and partial unmapping

`JobMmap` keeps the list of ranges that are still mapped; `unmap(range)` takes
whole native pages out of it, after releasing the memory locks that
`JobMemLock` tracks on them. The results of `munlock` and `munmap` are inputs.
-/

namespace JobIo

open Intervals

/-- What the two system calls of a partial unmap answer. -/
structure UnmapResults where
  munlock : Bool
  munmap : Bool

structure JobMemLock where
  addr : Nat
  size : Nat
  pageSize : Nat
  lockedRanges : List JobMemRange

namespace JobMemLock

def valid (m : JobMemLock) : Bool :=
  m.addr != nullptr && decide (m.size > 0) && decide (m.pageSize > 0) &&
    JobMemRange.validAlignment m.pageSize

def alignedRange (m : JobMemLock) (range : JobMemRange) : JobMemRange :=
  let aligned := range.alignedOutward m.pageSize
  JobMemRange.ofBounds aligned.first (min aligned.last m.size)

def removeLockedRange (m : JobMemLock) (range : JobMemRange) : JobMemLock :=
  if range.empty || m.lockedRanges.isEmpty then m
  else
    { m with lockedRanges := m.lockedRanges.flatMap fun locked =>
        if !locked.overlaps range then [locked]
        else
          (if locked.first < range.first then
            [JobMemRange.ofBounds locked.first (min range.first locked.last)] else []) ++
          (if range.last < locked.last then
            [JobMemRange.ofBounds (max range.last locked.first) locked.last] else []) }

/-- `unlock(range)`: no system call is made when no tracked range overlaps. -/
def unlockRange (m : JobMemLock) (range : JobMemRange) (munlock : Bool) : Bool × JobMemLock :=
  if !m.valid || range.empty || decide (range.last > m.size) then (false, m)
  else
    let aligned := m.alignedRange range
    if aligned.empty then (false, m)
    else if !m.lockedRanges.any (fun locked => locked.overlaps aligned) then (true, m)
    else if !munlock then (false, m)
    else (true, m.removeLockedRange aligned)

end JobMemLock

structure JobMmap where
  addr : Nat
  mapLength : Nat
  pageSize : Nat
  mappedRanges : List JobMemRange
  memLock : JobMemLock

namespace JobMmap

/-- State after a successful `initAnonymousMap`: one range, nothing locked. -/
def ofMap (addr size pageSize : Nat) : JobMmap where
  addr := addr
  mapLength := size
  pageSize := pageSize
  mappedRanges := [JobMemRange.ofBounds 0 size]
  memLock := ⟨addr, size, pageSize, []⟩

def isValid (m : JobMmap) : Bool := m.addr != nullptr && !m.mappedRanges.isEmpty

def mappedSize (m : JobMmap) : Nat := (m.mappedRanges.map JobMemRange.size).sum

def validRange (m : JobMmap) (range : JobMemRange) : Bool :=
  if range.empty then false else decide (range.last ≤ m.mapLength)

def mappedRange (m : JobMmap) (range : JobMemRange) : Bool :=
  if !m.validRange range then false
  else m.mappedRanges.any (fun mapped => mapped.contains range)

/-- Fold of `normalizeRanges`: the last range kept absorbs what it can merge with. -/
def normalizeStep (normalized : List JobMemRange) (current : JobMemRange) : List JobMemRange :=
  match normalized.getLast? with
  | none => [current]
  | some last =>
    if last.mergeable current then normalized.dropLast ++ [last.merged current]
    else normalized ++ [current]

def rangeBefore (a b : JobMemRange) : Prop :=
  if a.first ≠ b.first then a.first < b.first else a.last ≤ b.last

instance (a b : JobMemRange) : Decidable (rangeBefore a b) :=
  inferInstanceAs (Decidable (if a.first ≠ b.first then a.first < b.first else a.last ≤ b.last))

def normalizeRanges (ranges : List JobMemRange) : List JobMemRange :=
  if ranges.length < 2 then ranges
  else (ranges.insertionSort rangeBefore).foldl normalizeStep []

def subtractRange (ranges : List JobMemRange) (range : JobMemRange) : List JobMemRange :=
  if range.empty || ranges.isEmpty then ranges
  else
    normalizeRanges (ranges.flatMap fun mapped =>
      if !mapped.overlaps range then [mapped]
      else
        (if mapped.first < range.first then
          [JobMemRange.ofBounds mapped.first (min mapped.last range.first)] else []) ++
        (if range.last < mapped.last then
          [JobMemRange.ofBounds (max mapped.first range.last) mapped.last] else []))

/-- `unmap(range)`: only native pages that lie completely inside `range` are unmapped. -/
def unmapRange (m : JobMmap) (range : JobMemRange) (os : UnmapResults) : Bool × JobMmap :=
  if !m.isValid || range.empty || !m.validRange range then (false, m)
  else if !m.mappedRange range then (false, m)
  else
    let aligned := range.alignedInward m.pageSize
    if aligned.empty then (true, m)
    else if !m.mappedRange aligned then (false, m)
    else
      let unlocked := m.memLock.unlockRange aligned os.munlock
      let m := { m with memLock := unlocked.2 }
      if !unlocked.1 then (false, m)
      else if !os.munmap then (false, m)
      else (true, { m with mappedRanges := subtractRange m.mappedRanges aligned })

/-- The whole region `[0, mapLength)` is mapped, as after construction. The region and its end
address are representable, as for every object. -/
structure Full (m : JobMmap) : Prop where
  addr_ne : m.addr ≠ nullptr
  length_pos : 0 < m.mapLength
  representable : m.addr + m.mapLength ≤ sizeMax
  whole : m.mappedRanges = [JobMemRange.ofBounds 0 m.mapLength]

theorem ofMap_full {addr size pageSize : Nat} (ha : addr ≠ nullptr) (hs : 0 < size)
    (fits : addr + size ≤ sizeMax) : (ofMap addr size pageSize).Full :=
  ⟨ha, hs, fits, rfl⟩

theorem Full.isValid {m : JobMmap} (full : m.Full) : m.isValid = true := by
  simp [JobMmap.isValid, full.addr_ne, full.whole]

theorem Full.mappedSize {m : JobMmap} (full : m.Full) : m.mappedSize = m.mapLength := by
  simp [JobMmap.mappedSize, full.whole, JobMemRange.size, JobMemRange.ofBounds]

theorem Full.contains {m : JobMmap} (full : m.Full) {x : Nat} (hx : x < m.mapLength) :
    ∃ r ∈ m.mappedRanges, r.containsOffset x = true := by
  refine ⟨_, by rw [full.whole]; exact List.mem_singleton_self _, ?_⟩
  rw [JobMemRange.containsOffset_iff]
  exact ⟨Nat.zero_le _, by simpa [JobMemRange.ofBounds] using hx⟩

/-- A partial unmap changes the mapped ranges and the lock bookkeeping, nothing else. -/
theorem unmapRange_frame (m : JobMmap) (range : JobMemRange) (os : UnmapResults) :
    (m.unmapRange range os).2.addr = m.addr ∧
      (m.unmapRange range os).2.mapLength = m.mapLength := by
  unfold unmapRange
  split
  · exact ⟨rfl, rfl⟩
  split
  · exact ⟨rfl, rfl⟩
  dsimp only
  split
  · exact ⟨rfl, rfl⟩
  split
  · exact ⟨rfl, rfl⟩
  split
  · exact ⟨rfl, rfl⟩
  split
  · exact ⟨rfl, rfl⟩
  · exact ⟨rfl, rfl⟩

end JobMmap

end JobIo
