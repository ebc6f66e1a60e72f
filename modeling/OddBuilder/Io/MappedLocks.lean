import OddBuilder.Io.MemLock

/-!
# Locks on a mapping that loses pages

Locking rounds outward to native pages and unmapping rounds inward, and the
last page of a mapping may be partial. Every boundary inside the mapping stays
on a page, so that no lock reaches past what is mapped.
-/

namespace JobIo

open Intervals List JobMemRange Alignment

namespace JobMmap

def lock (m : JobMmap) (mlock : Bool) : Bool × JobMmap :=
  if !m.isValid then (false, m)
  else if m.mappedRanges.length ≠ 1 then (false, m)
  else if m.mappedRanges.head? ≠ some (JobMemRange.ofBounds 0 m.mapLength) then (false, m)
  else
    let locked := m.memLock.lock mlock
    (locked.1, { m with memLock := locked.2 })

def lockRange (m : JobMmap) (range : JobMemRange) (mlock : Bool) : Bool × JobMmap :=
  if !m.isValid || !m.mappedRange range then (false, m)
  else
    let locked := m.memLock.lockRange range mlock
    (locked.1, { m with memLock := locked.2 })

def unlock (m : JobMmap) (munlock : JobMemRange → Bool) : Bool × JobMmap :=
  let unlocked := m.memLock.unlock munlock
  (unlocked.1, { m with memLock := unlocked.2 })

def unlockRange (m : JobMmap) (range : JobMemRange) (munlock : Bool) : Bool × JobMmap :=
  let unlocked := m.memLock.unlockRange range munlock
  (unlocked.1, { m with memLock := unlocked.2 })

/-- `unmap()`: the locks are released, twice if need be, and whatever `munmap` answers nothing
counts as mapped any more. -/
def unmap (m : JobMmap) (munlock again : JobMemRange → Bool) : JobMmap :=
  if m.addr == nullptr then m
  else
    { m with
      mappedRanges := []
      memLock := ((m.memLock.unlock munlock).2.clear again).2
      addr := nullptr }

/-- The bytes that are still mapped. -/
def mapped (m : JobMmap) : Set Nat := points m.mappedRanges

/-- The native pages that lie within the range. -/
def wholePages (m : JobMmap) (range : JobMemRange) : Set Nat :=
  {x | ∀ y, x / m.pageSize = y / m.pageSize → range.first ≤ y ∧ y < range.last}

theorem normalizeStep_gap {front : List JobMemRange} {current : JobMemRange}
    (sep : Separated (front ++ [current])) : normalizeStep front current = front ++ [current] := by
  unfold normalizeStep
  split
  · rename_i hnone
    rw [List.getLast?_eq_none_iff.1 hnone]
    rfl
  · rename_i last hlast
    have hmem : last ∈ front := mem_of_getLast? hlast
    have hgap : last.last < current.first :=
      (pairwise_append.1 sep.apart).2.2 last hmem current (mem_singleton_self _)
    have hne : last.first < last.last := sep.nonempty last (mem_append_left _ hmem)
    have hne' : current.first < current.last := sep.nonempty current (by simp)
    have hapart : ¬ last.mergeable current = true := by
      rw [mergeable_iff]
      omega
    rw [if_neg hapart]

theorem foldl_normalizeStep (rest : List JobMemRange) : ∀ front : List JobMemRange,
    Separated (front ++ rest) → rest.foldl normalizeStep front = front ++ rest := by
  induction rest with
  | nil =>
    intro front _
    rw [append_nil]
    rfl
  | cons current rest ih =>
    intro front sep
    have hsplit : front ++ current :: rest = front ++ [current] ++ rest := by simp
    rw [hsplit] at sep ⊢
    have hfront : Separated (front ++ [current]) :=
      ⟨fun r hr => sep.nonempty r (mem_append_left _ hr), (pairwise_append.1 sep.apart).1⟩
    rw [foldl_cons, normalizeStep_gap hfront]
    exact ih _ sep

/-- A separated list is left as it is. -/
theorem normalizeRanges_separated {l : List JobMemRange} (sep : Separated l) :
    normalizeRanges l = l := by
  have hsorted : l.Pairwise rangeBefore := by
    refine sep.apart.imp_of_mem ?_
    intro a b ha _ hgap
    have hne := sep.nonempty a ha
    simp only [lo_eq] at hgap hne
    unfold rangeBefore
    rw [if_pos (by omega)]
    omega
  unfold normalizeRanges
  split
  · rfl
  · rw [hsorted.insertionSort_eq]
    exact foldl_normalizeStep l [] sep

theorem subtractRange_spec {ranges : List JobMemRange} {range : JobMemRange}
    (sep : Separated ranges) (hrange : range.first < range.last) :
    Separated (subtractRange ranges range) ∧
      points (subtractRange ranges range) = points ranges \ Set.Ico range.first range.last ∧
      ∀ r ∈ subtractRange ranges range, ∃ q ∈ ranges,
        (r.first = q.first ∨ r.first = range.last) ∧ (r.last = q.last ∨ r.last = range.first) := by
  have hempty : range.empty = false := by
    simp only [empty, beq_eq_false_iff_ne]
    omega
  have hcuts : ∀ q ∈ ranges, Cuts range.first range.last q (q.without range) :=
    fun q hq => cuts_without (sep.nonempty q hq) hrange
  have hsep := sep.flatMap_cuts hcuts
  have hresult : subtractRange ranges range =
      ranges.flatMap fun q => without q range := by
    by_cases hnil : ranges = []
    · simp [subtractRange, hnil]
    · have hguard : ¬ (range.empty || ranges.isEmpty) = true := by simp [hempty, hnil]
      have hpieces : (fun q : JobMemRange =>
          if !q.overlaps range then [q]
          else
            (if q.first < range.first then
              [ofBounds q.first (min q.last range.first)] else []) ++
            (if range.last < q.last then
              [ofBounds (max q.first range.last) q.last] else [])) =
          fun q => without q range := by
        funext q
        rw [without, Nat.min_comm q.last, Nat.max_comm q.first]
      rw [subtractRange, if_neg hguard, hpieces]
      exact normalizeRanges_separated hsep
  rw [hresult]
  refine ⟨hsep, points_flatMap_cuts hcuts, ?_⟩
  intro r hr
  obtain ⟨q, hq, hpiece⟩ := mem_flatMap.1 hr
  exact ⟨q, hq, ends_of_mem_without (sep.nonempty q hq) hrange hpiece⟩

/-- What rounding inward makes of a range. -/
theorem alignedInward_cases {range : JobMemRange} {pageSize : Nat}
    (hps : validAlignment pageSize = true) (hne : range.first < range.last)
    (contract : range.first + (pageSize - 1) ≤ sizeMax) (hword : range.last ≤ sizeMax) :
    (range.alignedInward pageSize).empty = true ∧
        down range.last pageSize ≤ up range.first pageSize ∨
      (range.alignedInward pageSize).first = up range.first pageSize ∧
        (range.alignedInward pageSize).last = down range.last pageSize ∧
        up range.first pageSize < down range.last pageSize := by
  have hempty : ¬ range.empty = true := by
    simp only [empty, beq_iff_eq]
    omega
  have hfirst : alignUp range.first pageSize = up range.first pageSize :=
    alignUp_eq hps contract
  have hlast : alignDown range.last pageSize = down range.last pageSize :=
    alignDown_eq hps hword
  unfold alignedInward
  rw [if_neg hempty, hfirst, hlast]
  dsimp only
  split
  · rename_i hcrossed
    refine Or.inl ⟨?_, hcrossed⟩
    simp [empty, ofBounds]
  · exact Or.inr ⟨rfl, ofBounds_last (by omega), by omega⟩

theorem wholePages_eq {m : JobMmap} (hpos : 0 < m.pageSize) (range : JobMemRange) :
    m.wholePages range = Set.Ico (up range.first m.pageSize)
      (down range.last m.pageSize) := by
  ext x
  exact forall_block_iff hpos range.first range.last x

/-- What holds of a mapping and its locks between two calls. -/
structure PagesKept (m : JobMmap) : Prop where
  page : JobMemRange.validAlignment m.pageSize = true
  room : m.mapLength + (m.pageSize - 1) ≤ sizeMax
  separated : Separated m.mappedRanges
  first_page : ∀ r ∈ m.mappedRanges, m.pageSize ∣ r.first
  last_page : ∀ r ∈ m.mappedRanges, r.last ≤ m.mapLength ∧
    (m.pageSize ∣ r.last ∨ r.last = m.mapLength)
  locks : m.memLock.Kept
  locked : m.memLock.tracked ⊆ m.mapped
  domain : m.addr ≠ nullptr → m.memLock.addr = m.addr ∧ m.memLock.size = m.mapLength ∧
    m.memLock.pageSize = m.pageSize
  gone : m.addr = nullptr → m.mappedRanges = [] ∧ m.memLock.addr = nullptr

section Steps

variable {m : JobMmap}

theorem PagesKept.pageSize_pos (kept : PagesKept m) : 0 < m.pageSize :=
  Nat.pos_of_isPowerOfTwo (validAlignment_iff.1 kept.page)

/-- New locks that stay on mapped bytes keep the invariant. -/
theorem PagesKept.withLock (kept : PagesKept m) {memLock : JobMemLock} (locks : memLock.Kept)
    (hlocked : memLock.tracked ⊆ m.mapped) (haddr : memLock.addr = m.memLock.addr)
    (hsize : memLock.size = m.memLock.size) (hpage : memLock.pageSize = m.memLock.pageSize) :
    PagesKept { m with memLock := memLock } := by
  refine ⟨kept.page, kept.room, kept.separated, kept.first_page, kept.last_page, locks, hlocked,
    ?_, ?_⟩
  · intro hne
    obtain ⟨haddr', hsize', hpage'⟩ := kept.domain hne
    exact ⟨haddr.trans haddr', hsize.trans hsize', hpage.trans hpage'⟩
  · intro hnull
    obtain ⟨hnil, haddr'⟩ := kept.gone hnull
    exact ⟨hnil, haddr.trans haddr'⟩

/-- A request on the lock of the mapping keeps to the contract of rounding. -/
theorem PagesKept.contract (kept : PagesKept m) (range : JobMemRange) :
    m.memLock.KeepsContract range := by
  intro hvalid _ hsize
  have haddr := (JobMemLock.valid_iff.1 hvalid).1
  have hne : m.addr ≠ nullptr := by
    intro hnull
    exact haddr (kept.gone hnull).2
  obtain ⟨-⟩ := kept.domain hne
  have hroom := kept.room
  unfold JobMemLock.OutwardContract
  omega

theorem addr_of_isValid (h : ¬ (!m.isValid) = true) : m.addr ≠ nullptr := by
  intro hnull
  simp [isValid, hnull] at h

/-- Whatever a request on the lock does, what it adds being mapped is enough. -/
theorem PagesKept.moves (kept : PagesKept m) {tracked' : Set Nat} {result : Bool × JobMemLock}
    (hmoves : JobMemLock.Moves m.memLock tracked' result) (hmapped : tracked' ⊆ m.mapped) :
    PagesKept { m with memLock := result.2 } := by
  refine kept.withLock hmoves.kept ?_ hmoves.addr_eq hmoves.size_eq hmoves.pageSize_eq
  cases hresult : result.1 with
  | true =>
    rw [hmoves.succeeds hresult]
    exact hmapped
  | false =>
    rw [hmoves.fails hresult]
    exact kept.locked

/-- The pages of a mapped range are mapped, as far as the mapping goes. -/
theorem PagesKept.hull_mapped (kept : PagesKept m) (hne : m.addr ≠ nullptr) {range : JobMemRange}
    (hrange : m.mappedRange range = true) : m.memLock.hull range ⊆ m.mapped := by
  obtain ⟨-, hsize, hpage⟩ := kept.domain hne
  have hpos := kept.pageSize_pos
  unfold mappedRange at hrange
  split at hrange
  · cases hrange
  · obtain ⟨q, hq, hcontains⟩ := any_eq_true.1 hrange
    simp only [JobMemRange.contains, Bool.and_eq_true, decide_eq_true_eq] at hcontains
    rintro x ⟨hx, y, hlow, hhigh, hblock⟩
    rw [hpage] at hblock
    rw [hsize] at hx
    have hsame := (down_eq_iff hpos x y).2 hblock
    refine ⟨q, hq, ?_, ?_⟩
    · have hfirst := (le_down_iff hpos (kept.first_page q hq) y).2
        (hcontains.1.trans hlow)
      rw [← hsame] at hfirst
      exact hfirst.trans (down_le x _)
    · rcases (kept.last_page q hq).2 with hlast | hlast
      · have hend := (lt_iff_down_add_le hpos hlast y).1 (hhigh.trans_le hcontains.2)
        rw [← hsame] at hend
        exact (lt_iff_down_add_le hpos hlast x).2 hend
      · rw [hi_eq, hlast]
        exact hx

theorem PagesKept.lockRange (kept : PagesKept m) (range : JobMemRange) (mlock : Bool) :
    PagesKept (m.lockRange range mlock).2 := by
  unfold JobMmap.lockRange
  split
  · exact kept
  · rename_i hguard
    simp only [Bool.or_eq_true, not_or, Bool.not_eq_true', Bool.not_eq_false] at hguard
    have hne : m.addr ≠ nullptr := addr_of_isValid (by simp [hguard.1])
    apply kept.moves (kept.locks.lockRange (kept.contract range) mlock)
    exact Set.union_subset kept.locked (kept.hull_mapped hne hguard.2)

theorem PagesKept.lock (kept : PagesKept m) (mlock : Bool) : PagesKept (m.lock mlock).2 := by
  unfold JobMmap.lock
  split
  · exact kept
  rename_i hvalid
  split
  · exact kept
  split
  · exact kept
  · rename_i hwhole
    simp only [not_not] at hwhole
    have hmem : ofBounds 0 m.mapLength ∈ m.mappedRanges :=
      mem_of_mem_head? hwhole
    have hne := addr_of_isValid hvalid
    obtain ⟨-, hsize, -⟩ := kept.domain hne
    unfold JobMemLock.lock
    split
    · exact kept.withLock kept.locks kept.locked rfl rfl rfl
    · apply kept.moves (kept.locks.lockRange (kept.contract _) mlock)
      rw [JobMemLock.hull_whole]
      refine Set.union_subset kept.locked ?_
      intro x hx
      refine ⟨_, hmem, Nat.zero_le x, ?_⟩
      rw [← hsize]
      exact hx

theorem PagesKept.unlockRange (kept : PagesKept m) (range : JobMemRange) (munlock : Bool) :
    PagesKept (m.unlockRange range munlock).2 :=
  kept.moves (kept.locks.unlockRange (kept.contract range) munlock)
    (Set.sdiff_subset.trans kept.locked)

theorem PagesKept.unlock (kept : PagesKept m) (munlock : JobMemRange → Bool) :
    PagesKept (m.unlock munlock).2 := by
  unfold JobMmap.unlock JobMemLock.unlock
  split
  · exact kept
  · rw [kept.locks.release_eq]
    refine kept.withLock (kept.locks.filter _) ?_ rfl rfl rfl
    rintro x ⟨r, hr, hx⟩
    exact kept.locked ⟨r, (mem_filter.1 hr).1, hx⟩

/-- A call of `unmap(range)` takes exactly the whole pages of the range, or nothing. -/
structure TakesPages (m : JobMmap) (range : JobMemRange) (result : Bool × JobMmap) : Prop where
  kept : PagesKept result.2
  succeeds : result.1 = true → result.2.mapped = m.mapped \ m.wholePages range
  fails : result.1 = false → result.2.mappedRanges = m.mappedRanges

theorem TakesPages.refused (kept : PagesKept m) (range : JobMemRange) :
    TakesPages m range (false, m) :=
  ⟨kept, fun h => absurd h Bool.false_ne_true, fun _ => rfl⟩

theorem mappedRange_bounds {range : JobMemRange} (h : m.mappedRange range = true) :
    range.first < range.last ∧ range.last ≤ m.mapLength := by
  have hordered := range.ordered
  unfold mappedRange at h
  split at h
  · cases h
  · rename_i hguard
    simp only [Bool.not_eq_true', Bool.not_eq_false, validRange] at hguard
    split at hguard
    · cases hguard
    · rename_i hempty
      simp only [empty, beq_iff_eq] at hempty
      exact ⟨by omega, of_decide_eq_true hguard⟩

/-- The mapped ranges after whole pages were taken out still end on pages. -/
theorem PagesKept.taken (kept : PagesKept m) {aligned : JobMemRange}
    (hne : aligned.first < aligned.last) (hfirst : m.pageSize ∣ aligned.first)
    (hlast : m.pageSize ∣ aligned.last) (hend : aligned.last ≤ m.mapLength)
    {memLock : JobMemLock} (locks : memLock.Kept)
    (hlocked : memLock.tracked ⊆ m.mapped \ Set.Ico aligned.first aligned.last)
    (hdomain : memLock.addr = m.memLock.addr ∧ memLock.size = m.memLock.size ∧
      memLock.pageSize = m.memLock.pageSize) :
    PagesKept { m with
      memLock := memLock, mappedRanges := subtractRange m.mappedRanges aligned } := by
  obtain ⟨hsep, hpoints, hends⟩ := subtractRange_spec kept.separated hne
  obtain ⟨haddr, hsize, hpage⟩ := hdomain
  refine ⟨kept.page, kept.room, hsep, ?_, ?_, locks, ?_, ?_, ?_⟩
  · intro r hr
    obtain ⟨q, hq, hstart⟩ := hends r hr
    rcases hstart with heq | heq
    · rw [heq]
      exact kept.first_page q hq
    · rw [heq]
      exact hlast
  · intro r hr
    obtain ⟨q, hq, -, hstop⟩ := hends r hr
    rcases hstop with heq | heq
    · rw [heq]
      exact kept.last_page q hq
    · rw [heq]
      exact ⟨hne.le.trans hend, Or.inl hfirst⟩
  · unfold mapped
    rw [hpoints]
    exact hlocked
  · intro haddr'
    obtain ⟨h₁, h₂, h₃⟩ := kept.domain haddr'
    exact ⟨haddr.trans h₁, hsize.trans h₂, hpage.trans h₃⟩
  · intro hnull
    obtain ⟨hnil, hnull'⟩ := kept.gone hnull
    refine ⟨?_, haddr.trans hnull'⟩
    simp [subtractRange, hnil]

theorem PagesKept.unmapRange (kept : PagesKept m) (range : JobMemRange) (os : UnmapResults) :
    TakesPages m range (m.unmapRange range os) := by
  have hpos := kept.pageSize_pos
  have hroom := kept.room
  unfold JobMmap.unmapRange
  split
  · exact .refused kept range
  split
  · exact .refused kept range
  rename_i hmapped
  simp only [Bool.not_eq_true', Bool.not_eq_false] at hmapped
  obtain ⟨hne, hsize⟩ := mappedRange_bounds hmapped
  have hinward := alignedInward_cases kept.page hne (by omega) (by omega)
  dsimp only
  split
  · rename_i hempty
    refine ⟨kept, ?_, fun h => absurd h.symm Bool.false_ne_true⟩
    intro _
    rcases hinward with ⟨hcrossed⟩
    · rw [wholePages_eq hpos, Set.Ico_eq_empty (by omega), Set.sdiff_empty]
    · simp only [empty, beq_iff_eq] at hempty
      omega
  rename_i hnonempty
  obtain ⟨hfirst, hlast, hinside⟩ := hinward.resolve_left fun h => hnonempty h.1
  have hwhole : Set.Ico (range.alignedInward m.pageSize).first
      (range.alignedInward m.pageSize).last = m.wholePages range := by
    rw [wholePages_eq hpos, hfirst, hlast]
  have hend : (range.alignedInward m.pageSize).last ≤ m.mapLength := by
    rw [hlast]
    exact (down_le _ _).trans hsize
  split
  · exact .refused kept range
  have hmoves := kept.locks.unlockRange (kept.contract (range.alignedInward m.pageSize)) os.munlock
  have hkept := kept.moves hmoves (Set.sdiff_subset.trans kept.locked)
  split
  · exact ⟨hkept, fun h => absurd h Bool.false_ne_true, fun _ => rfl⟩
  rename_i hunlocked
  simp only [Bool.not_eq_true', Bool.not_eq_false] at hunlocked
  split
  · exact ⟨hkept, fun h => absurd h Bool.false_ne_true, fun _ => rfl⟩
  · refine ⟨?_, ?_, fun h => absurd h.symm Bool.false_ne_true⟩
    · refine kept.taken (by omega) ?_ ?_ hend hmoves.kept ?_
        ⟨hmoves.addr_eq, hmoves.size_eq, hmoves.pageSize_eq⟩
      · rw [hfirst]
        exact dvd_up _ _
      · rw [hlast]
        exact dvd_down _ _
      · rw [hmoves.succeeds hunlocked]
        rintro x ⟨hx, hout⟩
        refine ⟨kept.locked hx, ?_⟩
        intro hin
        apply hout
        exact ⟨kept.locks.tracked_lt hx, x, hin.1, hin.2, rfl⟩
    · intro _
      have hpoints := (subtractRange_spec kept.separated
        (show (range.alignedInward m.pageSize).first < (range.alignedInward m.pageSize).last by
          omega)).2.1
      unfold mapped
      rw [hpoints, hwhole]

/-- When the locks are released, nothing is locked and nothing mapped. -/
theorem PagesKept.unmap (kept : PagesKept m) {munlock again : JobMemRange → Bool}
    (hmunlock : ∀ range, munlock range = true) : PagesKept (m.unmap munlock again) := by
  unfold JobMmap.unmap
  split
  · exact kept
  · have hunlock : (m.memLock.unlock munlock).2 = { m.memLock with lockedRanges := [] } := by
      unfold JobMemLock.unlock
      split
      · rename_i hvalid
        have hnil : m.memLock.lockedRanges = [] := by
          by_contra hlocked
          rw [kept.locks.domain hlocked] at hvalid
          cases hvalid
        rw [← hnil]
      · rw [kept.locks.release_eq]
        simp [hmunlock]
    have hclear : (({ m.memLock with lockedRanges := [] } : JobMemLock).clear again).2 =
        ⟨nullptr, 0, 0, []⟩ := rfl
    rw [hunlock]
    refine ⟨kept.page, kept.room, .nil, by simp, by simp, .of_empty rfl, ?_, ?_, ?_⟩
    · rintro x ⟨r, hr, -⟩
      cases hr
    · exact fun h => absurd rfl h
    · exact fun _ => ⟨rfl, rfl⟩

end Steps

inductive MapOp where
  | lock (mlock : Bool)
  | lockRange (range : JobMemRange) (mlock : Bool)
  | unlock (munlock : JobMemRange → Bool)
  | unlockRange (range : JobMemRange) (munlock : Bool)
  | unmapRange (range : JobMemRange) (os : UnmapResults)
  | unmap (munlock again : JobMemRange → Bool)

def step (m : JobMmap) : MapOp → JobMmap
  | .lock mlock => (m.lock mlock).2
  | .lockRange range mlock => (m.lockRange range mlock).2
  | .unlock munlock => (m.unlock munlock).2
  | .unlockRange range munlock => (m.unlockRange range munlock).2
  | .unmapRange range os => (m.unmapRange range os).2
  | .unmap munlock again => m.unmap munlock again

def run (m : JobMmap) (ops : List MapOp) : JobMmap := ops.foldl step m

/-- The full unmap can release the locks that are tracked. -/
def MapOp.Releases : MapOp → Prop
  | .unmap munlock _ => ∀ range, munlock range = true
  | _ => True

theorem PagesKept.step {m : JobMmap} (kept : PagesKept m) {op : MapOp} (hop : op.Releases) :
    PagesKept (m.step op) := by
  cases op with
  | lock mlock => exact kept.lock mlock
  | lockRange range mlock => exact kept.lockRange range mlock
  | unlock munlock => exact kept.unlock munlock
  | unlockRange range munlock => exact kept.unlockRange range munlock
  | unmapRange range os => exact (kept.unmapRange range os).kept
  | unmap munlock again => exact kept.unmap hop

theorem PagesKept.run {m : JobMmap} (kept : PagesKept m) {ops : List MapOp}
    (hops : ∀ op ∈ ops, op.Releases) : PagesKept (m.run ops) := by
  induction ops generalizing m with
  | nil => exact kept
  | cons op ops ih =>
    apply ih (kept.step (hops op mem_cons_self))
    exact fun op' hop' => hops op' (mem_cons_of_mem op hop')

/-- A new mapping: page-aligned, of any length, nothing locked. -/
theorem PagesKept.ofMap {addr length pageSize : Nat} (haddr : addr ≠ nullptr)
    (hlength : 0 < length) (fits : addr + length ≤ sizeMax)
    (hpage : validAlignment pageSize = true) (haligned : pageSize ∣ addr) :
    PagesKept (ofMap addr length pageSize) := by
  have hle : pageSize ≤ addr := Nat.le_of_dvd (Nat.pos_of_ne_zero haddr) haligned
  have hlast : (ofBounds 0 length).last = length :=
    ofBounds_last (Nat.zero_le _)
  refine ⟨hpage, ?_, ?_, ?_, ?_, .of_empty rfl, ?_, ?_, ?_⟩
  · change length + (pageSize - 1) ≤ sizeMax
    omega
  · refine separated_cons.2 ⟨?_, by simp, .nil⟩
    exact hlength
  · intro r hr
    rw [mem_singleton.1 hr]
    exact Nat.dvd_zero _
  · intro r hr
    rw [mem_singleton.1 hr]
    exact ⟨Nat.le_refl _, Or.inr rfl⟩
  · rintro x ⟨r, hr, -⟩
    cases hr
  · exact fun _ => ⟨rfl, rfl, rfl⟩
  · exact fun hnull => absurd hnull haddr

/-- Every state of a mapping whose locks can be released: the mapped ranges are separated and end
on pages, but for the end of the mapping; taking a range out takes its whole pages, or fails and
takes nothing; and every locked byte is mapped. -/
theorem mapped_locks_runs {addr length pageSize : Nat} (haddr : addr ≠ nullptr)
    (hlength : 0 < length) (fits : addr + length ≤ sizeMax)
    (hpage : validAlignment pageSize = true) (haligned : pageSize ∣ addr)
    {ops : List MapOp} (hops : ∀ op ∈ ops, op.Releases) :
    let m := (ofMap addr length pageSize).run ops
    Separated m.mappedRanges ∧
      (∀ r ∈ m.mappedRanges, m.pageSize ∣ r.first ∧ (m.pageSize ∣ r.last ∨ r.last = m.mapLength)) ∧
      (∀ range os, ((m.unmapRange range os).1 = true →
          (m.unmapRange range os).2.mapped = m.mapped \ m.wholePages range) ∧
        ((m.unmapRange range os).1 = false →
          (m.unmapRange range os).2.mappedRanges = m.mappedRanges)) ∧
      m.memLock.tracked ⊆ m.mapped := by
  intro m
  have kept : PagesKept m := (PagesKept.ofMap haddr hlength fits hpage haligned).run hops
  refine ⟨kept.separated, ?_, ?_, kept.locked⟩
  · exact fun r hr => ⟨kept.first_page r hr, (kept.last_page r hr).2⟩
  · exact fun range os => ⟨(kept.unmapRange range os).succeeds, (kept.unmapRange range os).fails⟩

/-- Three pages and a bit, all locked; one page is taken out of the middle. -/
theorem mapped_locks_runs_tail :
    let m := (ofMap 65536 13000 4096).run
      [.lock true, .unmapRange (ofBounds 4000 9000) ⟨true, true⟩]
    m.mappedRanges = [ofBounds 0 4096, ofBounds 8192 13000] ∧
      m.memLock.tracked ⊆ m.mapped := by
  intro m
  refine ⟨rfl, ?_⟩
  refine (mapped_locks_runs (by decide) (by decide) (by decide) (by decide) (by decide) ?_).2.2.2
  intro op hop
  rcases mem_cons.1 hop with rfl | hop
  · trivial
  · rw [mem_singleton.1 hop]
    trivial

end JobMmap

end JobIo
