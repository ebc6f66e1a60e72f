import OddBuilder.Io.MemRange
import OddBuilder.Library.IntervalSets

/-!
# Locked byte ranges

`JobMemLock` tracks which bytes of its domain are locked, as a list of maximal
ranges, and rounds every request outward to native pages. The results of
`mlock` and `munlock` are inputs. Rounding has a contract on the end of the
range; a call that breaks it ends the program.
-/

namespace JobIo

open Intervals JobMemRange JobMemLock Alignment

namespace JobMemRange

theorem spans_merged : Spans (merged : JobMemRange → JobMemRange → JobMemRange) := by
  intro a b
  have ha := a.ordered
  simp only [merged, lo_eq, hi_eq, ofBounds]
  constructor
  · split <;> omega
  · split <;> split <;> omega

theorem mergeable_of_meets {a b : JobMemRange} (ha : ¬ a.last < b.first)
    (hb : ¬ b.last < a.first) : a.mergeable b = true := by
  rw [mergeable_iff]
  omega

/-- What is left of an entry when `range` is taken out of the list. -/
def without (r range : JobMemRange) : List JobMemRange :=
  if !r.overlaps range then [r]
  else
    (if r.first < range.first then [ofBounds r.first (min range.first r.last)] else []) ++
    (if range.last < r.last then [ofBounds (max range.last r.first) r.last] else [])

section Without

variable {r range : JobMemRange} (hr : r.first < r.last) (hrange : range.first < range.last)
include hr hrange

theorem cuts_without : Cuts range.first range.last r (r.without range) := by
  unfold without
  by_cases hmeets : r.first < range.last ∧ range.first < r.last
  · have hoverlaps : r.overlaps range = true := by
      simpa [overlaps] using hmeets
    obtain ⟨hlow, hhigh⟩ := hmeets
    rw [hoverlaps]
    apply cuts_of_meets hrange hr hlow hhigh
    · intro h
      rw [lo_eq] at h
      refine ⟨rfl, ?_⟩
      simp only [hi_eq, ofBounds]
      omega
    · intro h
      rw [hi_eq] at h
      simp only [lo_eq, hi_eq, ofBounds]
      omega
  · have hoverlaps : r.overlaps range = false := by
      simpa [overlaps] using hmeets
    rw [hoverlaps]
    apply cuts_of_apart hr
    simp only [lo_eq, hi_eq]
    omega

/-- Every end of a piece is an end of the entry or of what was taken out. -/
theorem ends_of_mem_without {p : JobMemRange} (hp : p ∈ r.without range) :
    (p.first = r.first ∨ p.first = range.last) ∧ (p.last = r.last ∨ p.last = range.first) := by
  unfold without at hp
  split at hp
  · rw [List.mem_singleton.1 hp]
    exact ⟨Or.inl rfl, Or.inl rfl⟩
  · rename_i hoverlaps
    simp only [Bool.not_eq_true', Bool.not_eq_false, overlaps, Bool.and_eq_true,
      decide_eq_true_eq] at hoverlaps
    rcases List.mem_append.1 hp with hp | hp
    · split at hp
      · rw [List.mem_singleton.1 hp]
        refine ⟨Or.inl rfl, Or.inr ?_⟩
        simp only [ofBounds]
        omega
      · cases hp
    · split at hp
      · rw [List.mem_singleton.1 hp]
        refine ⟨Or.inr ?_, Or.inl ?_⟩
        · simp only [ofBounds]
          omega
        · simp only [ofBounds]
          omega
      · cases hp

end Without

end JobMemRange

namespace JobMemLock

variable {m : JobMemLock} {range : JobMemRange}

/-- The bytes that the bookkeeping says are locked. -/
def tracked (m : JobMemLock) : Set Nat := points m.lockedRanges

def isLockedRange (m : JobMemLock) (range : JobMemRange) : Bool :=
  if !m.valid || range.empty || decide (range.last > m.size) then false
  else m.lockedRanges.any fun locked => locked.contains range

/-- The loop of `addLockedRange`: ranges before the iterator stay, mergeable ones are erased. -/
def addLoop (merged : JobMemRange) : List JobMemRange → List JobMemRange
  | [] => [merged]
  | it :: rest =>
    if it.last < merged.first then it :: addLoop merged rest
    else if merged.last < it.first then merged :: it :: rest
    else if it.mergeable merged then addLoop (merged.merged it) rest
    else it :: addLoop merged rest

def addLockedRange (m : JobMemLock) (range : JobMemRange) : Bool × JobMemLock :=
  if range.empty then (false, m)
  else (true, { m with lockedRanges := addLoop range m.lockedRanges })

/-- `lock(range)`: no system call is made for a range that is already locked. -/
def lockRange (m : JobMemLock) (range : JobMemRange) (mlock : Bool) : Bool × JobMemLock :=
  if !m.valid || range.empty || decide (range.last > m.size) then (false, m)
  else
    let aligned := m.alignedRange range
    if aligned.empty then (false, m)
    else if m.isLockedRange aligned then (true, m)
    else if !mlock then (false, m)
    else m.addLockedRange aligned

def lock (m : JobMemLock) (mlock : Bool) : Bool × JobMemLock :=
  if !m.valid then (false, m) else m.lockRange (JobMemRange.fromSize 0 m.size) mlock

/-- The loop of `release`: a range goes when its `munlock` succeeds. -/
def releaseLoop (munlock : JobMemRange → Bool) : List JobMemRange → Bool × List JobMemRange
  | [] => (true, [])
  | range :: rest =>
    let released := releaseLoop munlock rest
    if munlock range then released else (false, range :: released.2)

def release (m : JobMemLock) (munlock : JobMemRange → Bool) : Bool × JobMemLock :=
  if m.lockedRanges.isEmpty then (true, m)
  else if !m.valid then (false, m)
  else
    let released := releaseLoop munlock m.lockedRanges
    (released.1, { m with lockedRanges := released.2 })

def unlock (m : JobMemLock) (munlock : JobMemRange → Bool) : Bool × JobMemLock :=
  if !m.valid then (false, m) else m.release munlock

def clear (m : JobMemLock) (munlock : JobMemRange → Bool) : Bool × JobMemLock :=
  let released := m.release munlock
  if !released.1 then (false, released.2)
  else (true, { released.2 with addr := nullptr, size := 0, pageSize := 0 })

def reset (m : JobMemLock) (addr size pageSize : Nat) (munlock : JobMemRange → Bool) :
    Bool × JobMemLock :=
  let released := m.release munlock
  if !released.1 then (false, released.2)
  else (true, { released.2 with addr := addr, size := size, pageSize := pageSize })

/-- The native pages that the range meets, as far as they lie in the domain. -/
def hull (m : JobMemLock) (range : JobMemRange) : Set Nat :=
  {x | x < m.size ∧ ∃ y, range.first ≤ y ∧ y < range.last ∧ x / m.pageSize = y / m.pageSize}

/-- The contract of `alignedOutward`. -/
def OutwardContract (m : JobMemLock) (range : JobMemRange) : Prop :=
  range.last ≤ sizeMax - (m.pageSize - 1)

instance (m : JobMemLock) (range : JobMemRange) : Decidable (m.OutwardContract range) :=
  inferInstanceAs (Decidable (range.last ≤ sizeMax - (m.pageSize - 1)))

theorem valid_iff : m.valid = true ↔
    m.addr ≠ nullptr ∧ 0 < m.size ∧ validAlignment m.pageSize = true := by
  have hpos : validAlignment m.pageSize = true → 0 < m.pageSize := fun h =>
    Nat.pos_of_isPowerOfTwo (validAlignment_iff.1 h)
  simp only [valid, Bool.and_eq_true, bne_iff_ne, decide_eq_true_eq]
  constructor
  · rintro ⟨⟨⟨haddr, hsize⟩⟩, ha⟩
    exact ⟨haddr, hsize, ha⟩
  · rintro ⟨haddr, hsize, ha⟩
    exact ⟨⟨⟨haddr, hsize⟩, hpos ha⟩, ha⟩

theorem pageSize_pos (hvalid : m.valid = true) : 0 < m.pageSize :=
  Nat.pos_of_isPowerOfTwo (validAlignment_iff.1 (valid_iff.1 hvalid).2.2)

/-- What every request goes through before it is rounded. -/
theorem request_guard :
    ¬ (!m.valid || range.empty || decide (range.last > m.size)) = true ↔
      m.valid = true ∧ range.first < range.last ∧ range.last ≤ m.size := by
  have hordered := range.ordered
  simp only [empty, Bool.or_eq_true, Bool.not_eq_true', beq_iff_eq,
    decide_eq_true_eq, not_or, Bool.not_eq_false, Nat.not_lt]
  constructor
  · rintro ⟨⟨hvalid⟩, hsize⟩
    exact ⟨hvalid, by omega, hsize⟩
  · rintro ⟨hvalid, hne, hsize⟩
    exact ⟨⟨hvalid, by omega⟩, hsize⟩

section Request

variable {m : JobMemLock} {range : JobMemRange} (hvalid : m.valid = true)
  (hne : range.first < range.last) (hsize : range.last ≤ m.size)
  (contract : m.OutwardContract range)
include hvalid hne hsize contract

theorem alignedRange_bounds :
    (m.alignedRange range).first = down range.first m.pageSize ∧
      (m.alignedRange range).last = min (up range.last m.pageSize) m.size := by
  have ha := (valid_iff.1 hvalid).2.2
  have hpos := pageSize_pos hvalid
  have hdown := down_le range.first m.pageSize
  have hup := le_up hpos range.last
  unfold OutwardContract at contract
  have hempty : ¬ range.empty = true := by
    simp only [empty, beq_iff_eq]
    omega
  have hfirst : alignDown range.first m.pageSize =
      down range.first m.pageSize := alignDown_eq ha (by omega)
  have hlast : alignUp range.last m.pageSize =
      up range.last m.pageSize := alignUp_eq ha (by omega)
  unfold alignedRange alignedOutward
  rw [if_neg hempty]
  simp only [ofBounds, true_and]
  omega

theorem alignedRange_ne : (m.alignedRange range).first < (m.alignedRange range).last := by
  obtain ⟨hfirst⟩ := alignedRange_bounds hvalid hne hsize contract
  have hdown := down_le range.first m.pageSize
  have hup := le_up (pageSize_pos hvalid) range.last
  omega

/-- The rounded range is the hull. -/
theorem points_alignedRange :
    Set.Ico (m.alignedRange range).first (m.alignedRange range).last = m.hull range := by
  obtain ⟨hfirst, hlast⟩ := alignedRange_bounds hvalid hne hsize contract
  have hpos := pageSize_pos hvalid
  ext x
  rw [hfirst, hlast, hull, Set.mem_ofPred_eq, exists_block_iff hpos hne]
  simp only [Set.mem_Ico, lt_min_iff]
  constructor
  · rintro ⟨hlow, hhigh, hx⟩
    exact ⟨hx, hlow, hhigh⟩
  · rintro ⟨hx, hlow, hhigh⟩
    exact ⟨hlow, hhigh, hx⟩

end Request

/-- What holds of the bookkeeping between two calls. -/
structure Kept (m : JobMemLock) : Prop where
  separated : Separated m.lockedRanges
  inside : ∀ r ∈ m.lockedRanges, r.last ≤ m.size
  domain : m.lockedRanges ≠ [] → m.valid = true

theorem Kept.of_empty (h : m.lockedRanges = []) : Kept m := by
  constructor
  · rw [h]
    exact .nil
  · simp [h]
  · exact fun hne => absurd h hne

theorem Kept.tracked_lt (kept : Kept m) {x : Nat} (hx : x ∈ m.tracked) : x < m.size := by
  obtain ⟨r, hr, -, hlast⟩ := hx
  exact hlast.trans_le (kept.inside r hr)

/-- Containment in one entry is containment in the tracked bytes. -/
theorem Kept.isLockedRange_iff (kept : Kept m) (range : JobMemRange) :
    m.isLockedRange range = true ↔
      range.first < range.last ∧ range.last ≤ m.size ∧
        Set.Ico range.first range.last ⊆ m.tracked := by
  unfold isLockedRange
  constructor
  · intro h
    split at h
    · cases h
    · rename_i hguard
      obtain ⟨-, hne, hsize⟩ := request_guard.1 hguard
      obtain ⟨locked, hlocked, hcontains⟩ := List.any_eq_true.1 h
      simp only [contains, Bool.and_eq_true, decide_eq_true_eq] at hcontains
      exact ⟨hne, hsize, subset_points_of_container hlocked hcontains.1 hcontains.2⟩
  · rintro ⟨hne, hsize, hsubset⟩
    obtain ⟨locked, hlocked, hlow, hhigh⟩ := kept.separated.exists_container hne hsubset
    have hvalid := kept.domain (List.ne_nil_of_mem hlocked)
    rw [if_neg (request_guard.2 ⟨hvalid, hne, hsize⟩)]
    apply List.any_eq_true.2
    refine ⟨locked, hlocked, ?_⟩
    simp only [contains, Bool.and_eq_true, decide_eq_true_eq]
    exact ⟨hlow, hhigh⟩

theorem addLoop_eq (merged : JobMemRange) (l : List JobMemRange) :
    addLoop merged l = absorb JobMemRange.merged merged l := by
  induction l generalizing merged with
  | nil => rfl
  | cons it rest ih =>
    unfold addLoop absorb
    simp only [lo_eq, hi_eq, ih]
    by_cases hbefore : it.last < merged.first
    · rw [if_pos hbefore, if_pos hbefore]
    by_cases hbehind : merged.last < it.first
    · rw [if_neg hbefore, if_neg hbefore, if_pos hbehind, if_pos hbehind]
    · rw [if_neg hbefore, if_neg hbefore, if_neg hbehind, if_neg hbehind,
        if_pos (mergeable_of_meets hbefore hbehind)]

/-- Taking a range out of the list takes its bytes out of the set. -/
theorem Kept.removeLockedRange (kept : Kept m) (hrange : range.first < range.last) :
    Kept (m.removeLockedRange range) ∧
      (m.removeLockedRange range).tracked = m.tracked \ Set.Ico range.first range.last := by
  have hempty : range.empty = false := by
    simp only [empty, beq_eq_false_iff_ne]
    omega
  by_cases hnil : m.lockedRanges = []
  · have hsame : m.removeLockedRange range = m := by
      simp [JobMemLock.removeLockedRange, hnil]
    rw [hsame]
    refine ⟨kept, ?_⟩
    unfold tracked
    rw [hnil, points_nil, Set.empty_sdiff]
  · have hguard : ¬ (range.empty || m.lockedRanges.isEmpty) = true := by
      simp [hempty, hnil]
    have hcuts : ∀ locked ∈ m.lockedRanges,
        Cuts range.first range.last locked (locked.without range) := fun locked hlocked =>
      cuts_without (kept.separated.nonempty locked hlocked) hrange
    unfold JobMemLock.removeLockedRange
    rw [if_neg hguard]
    refine ⟨⟨kept.separated.flatMap_cuts hcuts, ?_, ?_⟩, points_flatMap_cuts hcuts⟩
    · intro r hr
      obtain ⟨locked, hlocked, hpiece⟩ := List.mem_flatMap.1 hr
      exact ((hcuts locked hlocked).within r hpiece).2.trans (kept.inside locked hlocked)
    · exact fun _ => kept.domain hnil

theorem removeLockedRange_domain (m : JobMemLock) (range : JobMemRange) :
    (m.removeLockedRange range).addr = m.addr ∧ (m.removeLockedRange range).size = m.size ∧
      (m.removeLockedRange range).pageSize = m.pageSize := by
  unfold removeLockedRange
  split
  · exact ⟨rfl, rfl, rfl⟩
  · exact ⟨rfl, rfl, rfl⟩

theorem Kept.addLockedRange (kept : Kept m) (hvalid : m.valid = true)
    (hrange : range.first < range.last) (hsize : range.last ≤ m.size) :
    ∃ m', m.addLockedRange range = (true, m') ∧ Kept m' ∧
      m'.tracked = m.tracked ∪ Set.Ico range.first range.last ∧
      m'.addr = m.addr ∧ m'.size = m.size ∧ m'.pageSize = m.pageSize := by
  have hempty : ¬ range.empty = true := by
    simp only [empty, beq_iff_eq]
    omega
  refine ⟨{ m with lockedRanges := addLoop range m.lockedRanges }, ?_, ⟨?_, ?_, ?_⟩, ?_, rfl, rfl,
    rfl⟩
  · rw [JobMemLock.addLockedRange, if_neg hempty]
  · rw [addLoop_eq]
    exact absorb_separated JobMemRange.spans_merged hrange kept.separated
  · rw [addLoop_eq]
    exact hi_absorb JobMemRange.spans_merged hsize kept.inside
  · exact fun _ => hvalid
  · unfold tracked
    rw [addLoop_eq, points_absorb JobMemRange.spans_merged hrange kept.separated.nonempty,
      Set.union_comm]
    rfl

theorem releaseLoop_eq (munlock : JobMemRange → Bool) (l : List JobMemRange) :
    releaseLoop munlock l = (l.all munlock, l.filter fun range => !munlock range) := by
  induction l with
  | nil => rfl
  | cons range rest ih =>
    unfold releaseLoop
    rw [ih]
    by_cases h : munlock range = true
    · simp [h]
    · simp [h]

/-- A full release keeps exactly the ranges whose `munlock` failed. -/
theorem Kept.release_eq (kept : Kept m) (munlock : JobMemRange → Bool) :
    m.release munlock = (m.lockedRanges.all munlock,
      { m with lockedRanges := m.lockedRanges.filter fun range => !munlock range }) := by
  unfold release
  by_cases hnil : m.lockedRanges = []
  · cases m
    simp_all
  · have hvalid := kept.domain hnil
    rw [if_neg (by simpa using hnil), hvalid, releaseLoop_eq]
    rfl

theorem Kept.filter (kept : Kept m) (p : JobMemRange → Bool) :
    Kept { m with lockedRanges := m.lockedRanges.filter p } := by
  refine ⟨⟨?_, kept.separated.apart.sublist List.filter_sublist⟩, ?_, ?_⟩
  · intro r hr
    exact kept.separated.nonempty r (List.mem_filter.1 hr).1
  · intro r hr
    exact kept.inside r (List.mem_filter.1 hr).1
  · intro hne
    apply kept.domain
    intro hnil
    apply hne
    simp [hnil]

/-- What the two requests on a range do, for the set that they leave. -/
structure Moves (m : JobMemLock) (tracked' : Set Nat) (result : Bool × JobMemLock) : Prop where
  kept : Kept result.2
  addr_eq : result.2.addr = m.addr
  size_eq : result.2.size = m.size
  pageSize_eq : result.2.pageSize = m.pageSize
  succeeds : result.1 = true → result.2.tracked = tracked'
  fails : result.1 = false → result.2 = m

theorem Moves.refused (kept : Kept m) (tracked' : Set Nat) : Moves m tracked' (false, m) :=
  ⟨kept, rfl, rfl, rfl, fun h => absurd h Bool.false_ne_true, fun _ => rfl⟩

/-- The call reaches `alignedOutward` only within its contract. -/
def KeepsContract (m : JobMemLock) (range : JobMemRange) : Prop :=
  m.valid = true → range.first < range.last → range.last ≤ m.size → m.OutwardContract range

instance (m : JobMemLock) (range : JobMemRange) : Decidable (m.KeepsContract range) :=
  inferInstanceAs (Decidable (_ → _ → _ → _))

theorem Kept.lockRange (kept : Kept m) (contract : m.KeepsContract range) (mlock : Bool) :
    Moves m (m.tracked ∪ m.hull range) (m.lockRange range mlock) := by
  unfold JobMemLock.lockRange
  split
  · exact .refused kept _
  · rename_i hguard
    obtain ⟨hvalid, hne, hsize⟩ := request_guard.1 hguard
    have hcontract := contract hvalid hne hsize
    have hpoints := points_alignedRange hvalid hne hsize hcontract
    have haligned := alignedRange_ne hvalid hne hsize hcontract
    have hlast : (m.alignedRange range).last ≤ m.size := by
      rw [(alignedRange_bounds hvalid hne hsize hcontract).2]
      exact Nat.min_le_right _ _
    dsimp only
    split
    · exact .refused kept _
    split
    · rename_i hlocked
      have hsubset := ((kept.isLockedRange_iff _).1 hlocked).2.2
      rw [hpoints] at hsubset
      refine ⟨kept, rfl, rfl, rfl, ?_, fun h => absurd h.symm Bool.false_ne_true⟩
      intro _
      rw [Set.union_eq_left.2 hsubset]
    split
    · exact .refused kept _
    · obtain ⟨m', hadd, kept', htracked, haddr, hsize', hpage⟩ :=
        kept.addLockedRange hvalid haligned hlast
      rw [hadd]
      refine ⟨kept', haddr, hsize', hpage, ?_, fun h => absurd h.symm Bool.false_ne_true⟩
      intro _
      rw [htracked, hpoints]

theorem Kept.unlockRange (kept : Kept m) (contract : m.KeepsContract range) (munlock : Bool) :
    Moves m (m.tracked \ m.hull range) (m.unlockRange range munlock) := by
  unfold JobMemLock.unlockRange
  split
  · exact .refused kept _
  · rename_i hguard
    obtain ⟨hvalid, hne, hsize⟩ := request_guard.1 hguard
    have hcontract := contract hvalid hne hsize
    have hpoints := points_alignedRange hvalid hne hsize hcontract
    have haligned := alignedRange_ne hvalid hne hsize hcontract
    dsimp only
    split
    · exact .refused kept _
    split
    · rename_i hapart
      refine ⟨kept, rfl, rfl, rfl, ?_, fun h => absurd h.symm Bool.false_ne_true⟩
      intro _
      rw [← hpoints]
      refine (sdiff_eq_left.2 (Set.disjoint_left.2 ?_)).symm
      rintro x ⟨locked, hlocked, hx⟩ ⟨hlow, hhigh⟩
      simp only [Bool.not_eq_true', List.any_eq_false] at hapart
      apply hapart locked hlocked
      simp only [overlaps, Bool.and_eq_true, decide_eq_true_eq]
      obtain ⟨hlow', hhigh'⟩ := hx
      exact ⟨hlow'.trans_lt hhigh, hlow.trans_lt hhigh'⟩
    split
    · exact .refused kept _
    · obtain ⟨kept', htracked⟩ := kept.removeLockedRange haligned
      obtain ⟨haddr, hsize', hpage⟩ := removeLockedRange_domain m (m.alignedRange range)
      refine ⟨kept', haddr, hsize', hpage, ?_, fun h => absurd h.symm Bool.false_ne_true⟩
      intro _
      rw [htracked, hpoints]

theorem hull_whole (m : JobMemLock) :
    m.hull (fromSize 0 m.size) = Set.Iio m.size := by
  ext x
  simp only [hull, fromSize_last, Nat.zero_add]
  constructor
  · exact fun h => h.1
  · exact fun h => ⟨h, x, Nat.zero_le x, h, rfl⟩

inductive LockOp where
  | lock (mlock : Bool)
  | lockRange (range : JobMemRange) (mlock : Bool)
  | unlock (munlock : JobMemRange → Bool)
  | unlockRange (range : JobMemRange) (munlock : Bool)

/-- One call; none when a broken contract ends the program. -/
def call (m : JobMemLock) : LockOp → Option (Bool × JobMemLock)
  | .lock mlock =>
    if m.KeepsContract (JobMemRange.fromSize 0 m.size) then some (m.lock mlock) else none
  | .lockRange range mlock =>
    if m.KeepsContract range then some (m.lockRange range mlock) else none
  | .unlock munlock => some (m.unlock munlock)
  | .unlockRange range munlock =>
    if m.KeepsContract range then some (m.unlockRange range munlock) else none

def run (m : JobMemLock) : List LockOp → Option JobMemLock
  | [] => some m
  | op :: ops => (m.call op).bind fun result => result.2.run ops

/-- What a call that returned has done to the tracked bytes. -/
def Effect (m : JobMemLock) (op : LockOp) (result : Bool × JobMemLock) : Prop :=
  match op with
  | .lock _ =>
    if result.1 then result.2.tracked = m.tracked ∪ Set.Iio m.size else result.2 = m
  | .lockRange range _ =>
    if result.1 then result.2.tracked = m.tracked ∪ m.hull range else result.2 = m
  | .unlock munlock =>
    (result.1 = true → result.2.tracked = ∅) ∧
      result.2.lockedRanges = m.lockedRanges.filter fun range => !munlock range
  | .unlockRange range _ =>
    if result.1 then result.2.tracked = m.tracked \ m.hull range else result.2 = m

theorem Moves.effect {tracked' : Set Nat} {result : Bool × JobMemLock}
    (h : Moves m tracked' result) :
    if result.1 then result.2.tracked = tracked' else result.2 = m := by
  split
  · rename_i hsuccess
    exact h.succeeds hsuccess
  · rename_i hfailure
    exact h.fails (Bool.eq_false_iff.2 hfailure)

theorem Kept.call (kept : Kept m) {op : LockOp} {result : Bool × JobMemLock}
    (hcall : m.call op = some result) :
    Kept result.2 ∧ result.2.addr = m.addr ∧ result.2.size = m.size ∧
      result.2.pageSize = m.pageSize ∧ Effect m op result := by
  cases op with
  | lock mlock =>
    obtain ⟨contract, hsome⟩ := Option.ite_none_right_eq_some.1 hcall
    cases hsome
    unfold lock
    split
    · exact ⟨kept, rfl, rfl, rfl, rfl⟩
    · have hmoves := kept.lockRange contract mlock
      rw [hull_whole] at hmoves
      exact ⟨hmoves.kept, hmoves.addr_eq, hmoves.size_eq, hmoves.pageSize_eq, hmoves.effect⟩
  | lockRange range mlock =>
    obtain ⟨contract, hsome⟩ := Option.ite_none_right_eq_some.1 hcall
    cases hsome
    have hmoves := kept.lockRange contract mlock
    exact ⟨hmoves.kept, hmoves.addr_eq, hmoves.size_eq, hmoves.pageSize_eq, hmoves.effect⟩
  | unlock munlock =>
    cases hcall
    unfold unlock
    split
    · rename_i hvalid
      have hnil : m.lockedRanges = [] := by
        by_contra hne
        rw [kept.domain hne] at hvalid
        cases hvalid
      refine ⟨kept, rfl, rfl, rfl, fun h => absurd h Bool.false_ne_true, ?_⟩
      rw [hnil]
      rfl
    · rw [kept.release_eq]
      refine ⟨kept.filter _, rfl, rfl, rfl, ?_, rfl⟩
      intro hall
      have hnone : (m.lockedRanges.filter fun range => !munlock range) = [] := by
        apply List.filter_eq_nil_iff.2
        intro range hrange
        simp [List.all_eq_true.1 hall range hrange]
      unfold tracked
      rw [hnone, points_nil]
  | unlockRange range munlock =>
    obtain ⟨contract, hsome⟩ := Option.ite_none_right_eq_some.1 hcall
    cases hsome
    have hmoves := kept.unlockRange contract munlock
    exact ⟨hmoves.kept, hmoves.addr_eq, hmoves.size_eq, hmoves.pageSize_eq, hmoves.effect⟩

theorem Kept.run {m' : JobMemLock} (kept : Kept m) (ops : List LockOp)
    (hrun : m.run ops = some m') : Kept m' := by
  induction ops generalizing m with
  | nil =>
    cases hrun
    exact kept
  | cons op ops ih =>
    obtain ⟨result, hcall, hrest⟩ := Option.bind_eq_some_iff.1 hrun
    exact ih (kept.call hcall).1 hrest

/-- In every state of a run that starts with nothing locked: the entries are maximal ranges of
the domain; a call adds or takes away exactly the native pages of its range, or fails and leaves
the list alone, where a full unlock keeps what `munlock` would not release; and a range is locked
when all of its bytes are. -/
theorem mem_lock_runs {m₀ m : JobMemLock} (fresh : m₀.lockedRanges = []) (ops : List LockOp)
    (hrun : m₀.run ops = some m) :
    Separated m.lockedRanges ∧ (∀ r ∈ m.lockedRanges, r.last ≤ m.size) ∧
      (∀ op result, m.call op = some result → Effect m op result) ∧
      ∀ range, m.isLockedRange range = true ↔
        range.first < range.last ∧ range.last ≤ m.size ∧
          Set.Ico range.first range.last ⊆ m.tracked := by
  have kept := (Kept.of_empty fresh).run ops hrun
  exact ⟨kept.separated, kept.inside, fun _ _ hcall => (kept.call hcall).2.2.2.2,
    kept.isLockedRange_iff⟩

/-- A domain that ends inside a page: the tail is locked with the page before it, and unlocking
the middle page leaves two entries. -/
theorem mem_lock_runs_tail :
    let m : JobMemLock := ⟨65536, 10000, 4096,
      [ofBounds 0 4096, ofBounds 8192 10000]⟩
    run ⟨65536, 10000, 4096, []⟩
        [.lockRange (ofBounds 100 200) true,
          .lockRange (ofBounds 9000 9001) true, .lock true,
          .unlockRange (ofBounds 5000 5001) true] = some m ∧
      Separated m.lockedRanges := by
  intro m
  have hrun : run ⟨65536, 10000, 4096, []⟩
      [.lockRange (ofBounds 100 200) true,
        .lockRange (ofBounds 9000 9001) true, .lock true,
        .unlockRange (ofBounds 5000 5001) true] = some m := rfl
  exact ⟨hrun, (mem_lock_runs rfl _ hrun).1⟩

end JobMemLock

end JobIo
