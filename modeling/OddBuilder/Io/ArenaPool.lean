import OddBuilder.Io.PagePool
import Mathlib.Order.Bounds.Basic

/-!
# The arena pool

A single offset moves through one extent of a mapping; `clear` moves it back.
The blocks handed out since the last `clear` are kept beside the pool as a
log: the pool itself only knows how many bytes they and their padding take.
-/

namespace JobIo

open List JobMemRange Alignment

structure JobArenaPool where
  extent : Option JobMemExtent
  offset : Nat
  paddingBytes : Nat
  highWatermark : Nat
  allocationCount : Nat

namespace JobArenaPool

def alignUp (value alignment : Nat) : Option Nat :=
  if !JobMemRange.validAlignment alignment then none
  else
    let mask := alignment - 1
    if value > sizeMax - mask then none
    else some ((value + mask) &&& (sizeMax ^^^ mask))

def alloc (p : JobArenaPool) (size alignment : Nat) : Nat × JobArenaPool :=
  if size == 0 || !JobMemRange.validAlignment alignment then (nullptr, p)
  else
    match p.extent with
    | none => (nullptr, p)
    | some extent =>
      if !extent.mapped then (nullptr, p)
      else
        let capacity := extent.size
        if p.offset > capacity then (nullptr, p)
        else
          let base := extent.addr
          if p.offset > sizeMax - base then (nullptr, p)
          else
            let current := base + p.offset
            match alignUp current alignment with
            | none => (nullptr, p)
            | some aligned =>
              if aligned < current then (nullptr, p)
              else
                let padding := aligned - current
                if padding > sizeMax then (nullptr, p)
                else
                  let remaining := capacity - p.offset
                  if padding > remaining then (nullptr, p)
                  else if size > remaining - padding then (nullptr, p)
                  else
                    let consumed := padding + size
                    let offset := p.offset + consumed
                    (aligned, { p with
                      offset := offset
                      paddingBytes := p.paddingBytes + padding
                      highWatermark := if offset > p.highWatermark then offset else p.highWatermark
                      allocationCount := p.allocationCount + 1 })

/-- Individual blocks are not given back. -/
def free (p : JobArenaPool) (_ptr : Nat) : Bool × JobArenaPool := (false, p)

def owns (p : JobArenaPool) (ptr : Nat) : Bool :=
  ptr != nullptr && p.extent.any fun extent => extent.mapped && extent.containsPtr ptr

def size (p : JobArenaPool) : Nat :=
  match p.extent with
  | none => 0
  | some extent => extent.size

def allocated (p : JobArenaPool) : Nat := p.offset

def available (p : JobArenaPool) : Nat :=
  match p.extent with
  | none => 0
  | some extent => if p.offset ≥ extent.size then 0 else extent.size - p.offset

def clear (p : JobArenaPool) : JobArenaPool :=
  { p with offset := 0, paddingBytes := 0, allocationCount := 0 }

def empty : JobArenaPool := ⟨none, 0, 0, 0, 0⟩

def init (extent : Option JobMemExtent) : JobArenaPool :=
  match extent with
  | none => empty
  | some e => if !e.mapped then empty else { empty with extent := some e }

/-- `init` on a mapping: the extent is the whole of it. -/
def initMmap (mmap : Option JobMmap) (id : Nat) : JobArenaPool :=
  match mmap with
  | none => empty
  | some m =>
    if !m.isValid || m.addr == nullptr || m.mapLength == 0 then empty
    else
      match m.mappedRanges with
      | [mapped] =>
        if mapped.first ≠ 0 || mapped.last ≠ m.mapLength then empty
        else init (some ⟨id, m, mapped⟩)
      | _ => empty

/-- Address of the first byte of the arena; any number will do while there is none. -/
def base (p : JobArenaPool) : Nat :=
  match p.extent with
  | none => 0
  | some extent => extent.addr

/-- What the next block would lose to its alignment. -/
def paddingFor (p : JobArenaPool) (alignment : Nat) : Nat :=
  Alignment.up (p.base + p.offset) alignment - (p.base + p.offset)

/-- The extent of the arena is mapped and its end is an address. -/
def Backed (p : JobArenaPool) : Prop :=
  ∀ extent ∈ p.extent, extent.mapped = true ∧ extent.addr + extent.size ≤ sizeMax

/-- State after a block of `size` bytes was put behind `padding` bytes. -/
def taken (p : JobArenaPool) (padding size : Nat) : JobArenaPool :=
  { p with
    offset := p.offset + (padding + size)
    paddingBytes := p.paddingBytes + padding
    highWatermark := max p.highWatermark (p.offset + (padding + size))
    allocationCount := p.allocationCount + 1 }

theorem alignUp_eq {value alignment : Nat} (hv : 0 < value)
    (ha : validAlignment alignment = true) :
    alignUp value alignment =
      if up value alignment ≤ sizeMax then some (up value alignment) else none := by
  simp only [alignUp, ha, Bool.not_true, Bool.false_eq_true, if_false]
  by_cases hguard : value > sizeMax - (alignment - 1)
  · have := (sum_guard hv ha).1 hguard
    rw [if_pos hguard, if_neg (by omega)]
  · have := (sum_guard hv ha).not.1 hguard
    rw [if_neg hguard, if_pos (by omega), masked_sum hv ha hguard]

theorem raised (mark offset : Nat) : (if offset > mark then offset else mark) = max mark offset := by
  split
  · rw [Nat.max_eq_right (by omega)]
  · rw [Nat.max_eq_left (by omega)]

/-- A request is served exactly when its padding and its size still fit. -/
theorem alloc_eq {p : JobArenaPool} (live : p.Backed) (hoffset : p.offset ≤ p.size)
    {size alignment : Nat} (hsize : 0 < size)
    (ha : validAlignment alignment = true) :
    p.alloc size alignment =
      if p.paddingFor alignment + size ≤ p.size - p.offset then
        (p.base + p.offset + p.paddingFor alignment, p.taken (p.paddingFor alignment) size)
      else (nullptr, p) := by
  have hguard : ¬ (size == 0 || !validAlignment alignment) = true := by
    simp [ha, Nat.ne_of_gt hsize]
  unfold alloc
  rw [if_neg hguard]
  split
  · rename_i hnone
    rw [if_neg (by simp only [JobArenaPool.size, hnone]; omega)]
  · rename_i extent hextent
    obtain ⟨hmapped⟩ := live extent (by rw [hextent]; rfl)
    have hbase : p.base = extent.addr := by simp [base, hextent]
    have hcapacity : p.size = extent.size := by simp [JobArenaPool.size, hextent]
    have haddr : 0 < extent.addr := by
      simp only [JobMemExtent.mapped, Bool.and_eq_true, bne_iff_ne, nullptr] at hmapped
      simp only [JobMemExtent.addr]
      omega
    have hle := le_up (Nat.pos_of_isPowerOfTwo (validAlignment_iff.1 ha))
      (extent.addr + p.offset)
    rw [hcapacity] at hoffset ⊢
    simp only [paddingFor, hbase, hmapped, Bool.not_true, Bool.false_eq_true, if_false]
    rw [if_neg (by omega), if_neg (by omega), alignUp_eq (by omega) ha]
    generalize up (extent.addr + p.offset) alignment = aligned at hle ⊢
    by_cases hfits : aligned - (extent.addr + p.offset) + size ≤ extent.size - p.offset
    · have hword : aligned ≤ sizeMax := by omega
      have hroom : ¬ size > extent.size - p.offset - (aligned - (extent.addr + p.offset)) := by omega
      have haligned : extent.addr + p.offset + (aligned - (extent.addr + p.offset)) = aligned := by
        omega
      rw [if_pos hword, if_pos hfits, haligned]
      dsimp only
      rw [if_neg (by omega), if_neg (by omega), if_neg (by omega), if_neg hroom]
      apply Prod.ext
      · rfl
      · simp [taken, raised]
    · rw [if_neg hfits]
      split
      · rfl
      · rename_i aligned' hsome
        obtain ⟨-, hsame⟩ := Option.ite_none_right_eq_some.1 hsome
        cases hsame
        rw [if_neg (by omega)]
        split
        · rfl
        split
        · rfl
        · rw [if_pos (by omega)]

/-- A request for nothing, or with an alignment that is no power of two, is refused. -/
theorem alloc_invalid {p : JobArenaPool} {size alignment : Nat}
    (h : size = 0 ∨ validAlignment alignment = false) :
    p.alloc size alignment = (nullptr, p) := by
  unfold alloc
  rcases h with h | h
  · simp [h]
  · simp [h]

theorem base_pos {p : JobArenaPool} (live : p.Backed) (hsize : 0 < p.size) : 0 < p.base := by
  unfold JobArenaPool.size at hsize
  split at hsize
  · exact absurd hsize (Nat.lt_irrefl 0)
  · rename_i extent hextent
    have hmapped := (live extent (by rw [hextent]; rfl)).1
    simp only [JobMemExtent.mapped, Bool.and_eq_true, bne_iff_ne, nullptr] at hmapped
    simp only [base, hextent, JobMemExtent.addr]
    omega

/-- A call answers null and changes nothing, or puts its block behind the padding. -/
theorem alloc_cases {p : JobArenaPool} (live : p.Backed) (hoffset : p.offset ≤ p.size)
    (size alignment : Nat) : p.alloc size alignment = (nullptr, p) ∨
      0 < size ∧ validAlignment alignment = true ∧
        p.paddingFor alignment + size ≤ p.size - p.offset ∧
        p.base + p.offset + p.paddingFor alignment ≠ nullptr ∧
        p.alloc size alignment =
          (p.base + p.offset + p.paddingFor alignment, p.taken (p.paddingFor alignment) size) := by
  by_cases hsize : size = 0
  · exact Or.inl (alloc_invalid (Or.inl hsize))
  by_cases ha : validAlignment alignment = true
  · have heq := alloc_eq live hoffset (Nat.pos_of_ne_zero hsize) ha
    by_cases hfits : p.paddingFor alignment + size ≤ p.size - p.offset
    · rw [if_pos hfits] at heq
      have hbase := base_pos live (by omega)
      refine Or.inr ⟨Nat.pos_of_ne_zero hsize, ha, hfits, ?_, heq⟩
      unfold nullptr
      omega
    · rw [if_neg hfits] at heq
      exact Or.inl heq
  · exact Or.inl (alloc_invalid (Or.inr (Bool.eq_false_iff.2 ha)))

theorem refused_iff {p : JobArenaPool} (live : p.Backed) (hoffset : p.offset ≤ p.size)
    {size alignment : Nat} (ha : validAlignment alignment = true) :
    (p.alloc size alignment).1 = nullptr ↔
      size = 0 ∨ p.size - p.offset < p.paddingFor alignment + size := by
  rcases alloc_cases live hoffset size alignment with h | ⟨hsize, -, hfits, hne, h⟩
  · constructor
    · intro _
      by_contra hserved
      rw [alloc_eq live hoffset (by omega) ha, if_pos (by omega)] at h
      have hbase := base_pos live (by omega)
      have haddr := congrArg Prod.fst h
      simp only [nullptr] at haddr
      omega
    · intro _
      rw [h]
  · constructor
    · intro hnull
      rw [h] at hnull
      exact absurd hnull hne
    · rintro (hzero | hfull)
      · omega
      · omega

inductive ArenaOp where
  | alloc (size alignment : Nat)
  | clear

/-- A block as its caller knows it. -/
structure ArenaBlock where
  addr : Nat
  size : Nat
  alignment : Nat

/-- The pool with the blocks it has returned since the last `clear`. -/
structure ArenaRun where
  pool : JobArenaPool
  blocks : List ArenaBlock

namespace ArenaRun

def step (r : ArenaRun) : ArenaOp → ArenaRun
  | .alloc size alignment =>
    let result := r.pool.alloc size alignment
    ⟨result.2, if result.1 = nullptr then r.blocks else r.blocks ++ [⟨result.1, size, alignment⟩]⟩
  | .clear => ⟨r.pool.clear, []⟩

def run (extent : Option JobMemExtent) (ops : List ArenaOp) : ArenaRun :=
  ops.foldl step ⟨init extent, []⟩

@[simp] theorem run_concat (extent : Option JobMemExtent) (ops : List ArenaOp) (op : ArenaOp) :
    run extent (ops ++ [op]) = (run extent ops).step op := foldl_concat ..

/-- What the offset, the padding and the returned blocks say about each other. -/
structure Accounted (r : ArenaRun) : Prop where
  bounded : r.pool.offset ≤ r.pool.size
  sum : r.pool.offset = (r.blocks.map ArenaBlock.size).sum + r.pool.paddingBytes
  inside : ∀ b ∈ r.blocks, r.pool.base ≤ b.addr ∧ b.addr + b.size ≤ r.pool.base + r.pool.offset
  aligned : ∀ b ∈ r.blocks, b.alignment ∣ b.addr
  disjoint : r.blocks.Pairwise fun a b => a.addr + a.size ≤ b.addr

/-- The start of the block is a multiple of its alignment. -/
theorem dvd_start {p : JobArenaPool} {alignment : Nat}
    (ha : validAlignment alignment = true) :
    alignment ∣ p.base + p.offset + p.paddingFor alignment := by
  have hle := le_up (Nat.pos_of_isPowerOfTwo (validAlignment_iff.1 ha))
    (p.base + p.offset)
  have hstart : p.base + p.offset + p.paddingFor alignment =
      up (p.base + p.offset) alignment := by
    unfold paddingFor
    omega
  rw [hstart]
  exact dvd_up _ _

theorem Accounted.step {r : ArenaRun} (acc : Accounted r) (live : r.pool.Backed) (op : ArenaOp) :
    Accounted (r.step op) := by
  cases op with
  | clear =>
    exact ⟨Nat.zero_le _, rfl, by simp [ArenaRun.step], by simp [ArenaRun.step],
      List.Pairwise.nil⟩
  | alloc size alignment =>
    rcases alloc_cases live acc.bounded size alignment with h | ⟨hsize, ha, hfits, hne, h⟩
    · have hsame : r.step (.alloc size alignment) = r := by
        simp [ArenaRun.step, h]
      rwa [hsame]
    · have hnext : r.step (.alloc size alignment) =
          ⟨r.pool.taken (r.pool.paddingFor alignment) size, r.blocks ++
            [⟨r.pool.base + r.pool.offset + r.pool.paddingFor alignment, size, alignment⟩]⟩ := by
        simp [ArenaRun.step, h, if_neg hne]
      have hsum := acc.sum
      rw [hnext]
      constructor
      · change r.pool.offset + (r.pool.paddingFor alignment + size) ≤ r.pool.size
        omega
      · change r.pool.offset + (r.pool.paddingFor alignment + size) = _ + (r.pool.paddingBytes + _)
        rw [map_append, sum_append]
        simp only [map_cons, map_nil, sum_cons, sum_nil]
        omega
      · intro b hb
        change r.pool.base ≤ b.addr ∧
          b.addr + b.size ≤ r.pool.base + (r.pool.offset + (r.pool.paddingFor alignment + size))
        rcases mem_append.1 hb with hb | hb
        · obtain ⟨hlow⟩ := acc.inside b hb
          exact ⟨hlow, by omega⟩
        · rw [mem_singleton.1 hb]
          exact ⟨by dsimp only; omega, by dsimp only; omega⟩
      · intro b hb
        rcases mem_append.1 hb with hb | hb
        · exact acc.aligned b hb
        · rw [mem_singleton.1 hb]
          exact dvd_start ha
      · refine pairwise_append.2 ⟨acc.disjoint, pairwise_singleton _ _, ?_⟩
        intro a hmem b hb
        rw [mem_singleton.1 hb]
        have := (acc.inside a hmem).2
        dsimp only
        omega

theorem step_extent {r : ArenaRun} (acc : Accounted r) (live : r.pool.Backed) (op : ArenaOp) :
    (r.step op).pool.extent = r.pool.extent := by
  cases op with
  | clear => rfl
  | alloc size alignment =>
    rcases alloc_cases live acc.bounded size alignment with h | ⟨h⟩
    · simp [ArenaRun.step, h]
    · simp [ArenaRun.step, h, taken]

/-- The mark is raised to the new offset, and by nothing else. -/
theorem step_highWatermark {r : ArenaRun} (acc : Accounted r) (live : r.pool.Backed)
    (hmark : r.pool.offset ≤ r.pool.highWatermark) (op : ArenaOp) :
    (r.step op).pool.highWatermark = max r.pool.highWatermark (r.step op).pool.offset := by
  cases op with
  | clear => exact (Nat.max_eq_left (Nat.zero_le _)).symm
  | alloc size alignment =>
    rcases alloc_cases live acc.bounded size alignment with h | ⟨h⟩
    · simp only [ArenaRun.step, h]
      exact (Nat.max_eq_left hmark).symm
    · simp [ArenaRun.step, h, taken]

theorem init_backed {extent : Option JobMemExtent}
    (fits : ∀ e ∈ extent, e.addr + e.size ≤ sizeMax) : (init extent).Backed := by
  intro e he
  unfold init at he
  split at he
  · cases he
  · split at he
    · cases he
    · rename_i hmapped
      cases he
      simp only [Bool.not_eq_true', Bool.not_eq_false] at hmapped
      exact ⟨hmapped, fits _ rfl⟩

theorem init_zero (extent : Option JobMemExtent) : (init extent).offset = 0 ∧
    (init extent).paddingBytes = 0 ∧ (init extent).highWatermark = 0 := by
  unfold init
  split
  · exact ⟨rfl, rfl, rfl⟩
  · split
    · exact ⟨rfl, rfl, rfl⟩
    · exact ⟨rfl, rfl, rfl⟩

section Reached

variable {extent : Option JobMemExtent} (fits : ∀ e ∈ extent, e.addr + e.size ≤ sizeMax)
include fits

theorem run_accounted (ops : List ArenaOp) :
    Accounted (run extent ops) ∧ (run extent ops).pool.extent = (init extent).extent := by
  obtain ⟨hoffset⟩ := init_zero extent
  induction ops using List.reverseRecOn with
  | nil =>
    refine ⟨⟨?_, ?_, by simp [run], by simp [run], List.Pairwise.nil⟩, rfl⟩
    · change (init extent).offset ≤ _
      omega
    · change (init extent).offset = 0 + (init extent).paddingBytes
      omega
  | append_singleton ops op ih =>
    obtain ⟨acc, hextent⟩ := ih
    have live : (run extent ops).pool.Backed := by
      unfold Backed
      rw [hextent]
      exact init_backed fits
    rw [run_concat]
    exact ⟨acc.step live op, (step_extent acc live op).trans hextent⟩

theorem run_backed (ops : List ArenaOp) : (run extent ops).pool.Backed := by
  unfold Backed
  rw [(run_accounted fits ops).2]
  exact init_backed fits

/-- The mark is the greatest offset that a prefix of the run reached. -/
theorem run_highWatermark (ops : List ArenaOp) :
    IsGreatest {offset | ∃ before, before <+: ops ∧ offset = (run extent before).pool.offset}
      (run extent ops).pool.highWatermark := by
  induction ops using List.reverseRecOn with
  | nil =>
    obtain ⟨hoffset, -, hmark⟩ := init_zero extent
    constructor
    · refine ⟨[], prefix_rfl, ?_⟩
      exact hmark.trans hoffset.symm
    · rintro offset ⟨before, hbefore, rfl⟩
      rw [prefix_nil.1 hbefore]
      exact (hoffset.trans hmark.symm).le
  | append_singleton ops op ih =>
    have hmark : (run extent ops).pool.offset ≤ (run extent ops).pool.highWatermark :=
      ih.2 ⟨ops, prefix_rfl, rfl⟩
    have hstep := step_highWatermark (run_accounted fits ops).1 (run_backed fits ops) hmark op
    rw [run_concat, hstep]
    constructor
    · rcases Nat.le_total ((run extent ops).step op).pool.offset
        (run extent ops).pool.highWatermark with hle | hle
      · rw [Nat.max_eq_left hle]
        obtain ⟨before, hbefore, heq⟩ := ih.1
        exact ⟨before, hbefore.trans (prefix_append _ _), heq⟩
      · rw [Nat.max_eq_right hle]
        exact ⟨ops ++ [op], prefix_rfl, by rw [run_concat]⟩
    · rintro offset ⟨before, hbefore, rfl⟩
      rcases prefix_concat_iff.1 hbefore with heq | hshort
      · rw [heq, run_concat]
        exact Nat.le_max_right _ _
      · exact (ih.2 ⟨before, hshort, rfl⟩).trans (Nat.le_max_left _ _)

theorem run_highWatermark_mono (ops more : List ArenaOp) :
    (run extent ops).pool.highWatermark ≤ (run extent (ops ++ more)).pool.highWatermark := by
  obtain ⟨before, hbefore, heq⟩ := (run_highWatermark fits ops).1
  exact (run_highWatermark fits (ops ++ more)).2
    ⟨before, hbefore.trans (prefix_append _ _), heq⟩

end Reached

/-- Every run of an arena: the returned blocks are apart, aligned and inside the extent, the
offset is the blocks with their padding, the mark is the greatest offset reached, and a request
is refused when it asks for nothing or no longer fits. -/
theorem arena_pool_runs {extent : Option JobMemExtent}
    (fits : ∀ e ∈ extent, e.addr + e.size ≤ sizeMax) (ops : List ArenaOp) :
    let r := run extent ops
    Accounted r ∧
      (∀ b ∈ r.blocks, r.pool.base ≤ b.addr ∧ b.addr + b.size ≤ r.pool.base + r.pool.size) ∧
      (∀ more, r.pool.highWatermark ≤ (run extent (ops ++ more)).pool.highWatermark) ∧
      IsGreatest {offset | ∃ before, before <+: ops ∧ offset = (run extent before).pool.offset}
        r.pool.highWatermark ∧
      ∀ size alignment,
        ((r.pool.alloc size alignment).1 = nullptr → r.pool.alloc size alignment = (nullptr, r.pool)) ∧
        (validAlignment alignment = true →
          ((r.pool.alloc size alignment).1 = nullptr ↔
            size = 0 ∨ r.pool.size - r.pool.offset < r.pool.paddingFor alignment + size)) := by
  have acc := (run_accounted fits ops).1
  have live := run_backed fits ops
  refine ⟨acc, ?_, run_highWatermark_mono fits ops, run_highWatermark fits ops, ?_⟩
  · intro b hb
    have hbounded := acc.bounded
    obtain ⟨hlow, hhigh⟩ := acc.inside b hb
    exact ⟨hlow, by omega⟩
  · intro size alignment
    refine ⟨?_, refused_iff live acc.bounded⟩
    intro hnull
    rcases alloc_cases live acc.bounded size alignment with h | ⟨-, -, -, hne, h⟩
    · exact h
    · rw [h] at hnull
      exact absurd hnull hne

/-- An extent that starts in the middle of a page. -/
def sampleExtent : JobMemExtent where
  id := 0
  mmap := JobMmap.ofMap 65536 4096 4096
  range := JobMemRange.ofBounds 3 4096

theorem arena_pool_runs_sample :
    let r := run (some sampleExtent) [.alloc 5 1, .alloc 16 16, .alloc 4096 1]
    Accounted r ∧ r.blocks = [⟨65539, 5, 1⟩, ⟨65552, 16, 16⟩] ∧ r.pool.offset = 29 ∧
      r.pool.paddingBytes = 8 := by
  have hruns := @arena_pool_runs (some sampleExtent) (by decide)
    [.alloc 5 1, .alloc 16 16, .alloc 4096 1]
  exact ⟨hruns.1, rfl, rfl, rfl⟩

/-- A request for no bytes is refused although nothing is missing for it. -/
theorem zero_size_refused : ¬ ∀ (extent : Option JobMemExtent) (ops : List ArenaOp)
    (size alignment : Nat), (∀ e ∈ extent, e.addr + e.size ≤ sizeMax) →
      validAlignment alignment = true →
        let p := (run extent ops).pool
        ((p.alloc size alignment).1 = nullptr ↔
          p.size - p.offset < p.paddingFor alignment + size) := by
  intro h
  have hzero := (h (some sampleExtent) [] 0 1 (by decide) (by decide)).1 rfl
  revert hzero
  decide

end ArenaRun

end JobArenaPool

end JobIo
