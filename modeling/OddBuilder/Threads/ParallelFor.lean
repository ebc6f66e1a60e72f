import Mathlib.Data.List.Nodup
import Mathlib.Data.List.Perm.Basic
import Mathlib.Data.List.Range
import Mathlib.Tactic.Ring.RingNF

/-!
# parallel_for

The indexes from zero, in linear order and with the automatic grain: what each
task runs over.
-/

namespace JobThreads

open List

/-- The indexes of a block of `grain` below `n`. -/
def chunkIndexes (n grain c : Nat) : List Nat :=
  List.range' (c * grain) (min (c * grain + grain) n - c * grain)

/-- The blocks of the task `t`. -/
def taskChunks (chunkCount taskCount t : Nat) : List Nat :=
  let base := chunkCount / taskCount
  let rem := chunkCount % taskCount
  let beginChunk := t * base + min t rem
  let count := base + if t < rem then 1 else 0
  List.range' beginChunk count

def autoGrain (workerCount n : Nat) : Nat :=
  let k := max 1 workerCount * 8
  let ceilDiv := n / k + if n % k ≠ 0 then 1 else 0
  max 64 ceilDiv

def chunkCount (n grain : Nat) : Nat := n / grain + if n % grain ≠ 0 then 1 else 0

/-- The indexes of each submitted task. -/
def submittedTasks (hw grain n : Nat) : List (List Nat) :=
  let taskCount := min (chunkCount n grain) (hw * 8)
  (List.range taskCount).map fun t =>
    (taskChunks (chunkCount n grain) taskCount t).flatMap (chunkIndexes n grain)

/-- The indexes of each task; the caller's own loop is one task. -/
def parallelFor (inWorkerThread : Bool) (workerCount n : Nat) : List (List Nat) :=
  let hw := max 1 workerCount
  let grain := autoGrain workerCount n
  if n = 0 then []
  else if inWorkerThread = true ∨ n ≤ grain ∨ hw = 1 then [List.range n]
  else submittedTasks hw grain n

theorem range_append_range' (m k : Nat) : List.range m ++ List.range' m k = List.range (m + k) := by
  rw [range_eq_range', range_eq_range', ← List.range'_append_1, Nat.zero_add]

/-- The first tasks take the first blocks. -/
theorem taskChunks_range (chunkCount taskCount t : Nat) :
    (List.range t).flatMap (taskChunks chunkCount taskCount) =
      List.range (t * (chunkCount / taskCount) + min t (chunkCount % taskCount)) := by
  induction t with
  | zero => simp
  | succ t ih =>
    rw [range_succ, flatMap_append, ih, flatMap_singleton, taskChunks,
      range_append_range', Nat.succ_mul]
    congr 1
    split <;> omega

/-- The first blocks are the first indexes. -/
theorem chunkIndexes_range (n grain c : Nat) :
    (List.range c).flatMap (chunkIndexes n grain) = List.range (min (c * grain) n) := by
  induction c with
  | zero => simp
  | succ c ih =>
    rw [range_succ, flatMap_append, ih, flatMap_singleton, chunkIndexes, Nat.succ_mul]
    rcases Nat.le_total (c * grain) n with hle | hle
    · rw [Nat.min_eq_left hle, range_append_range']
      congr 1
      omega
    · rw [Nat.min_eq_right hle]
      have hnone : min (c * grain + grain) n - c * grain = 0 := by omega
      rw [hnone, List.range'_zero, append_nil]
      congr 1
      omega

theorem le_mul_chunkCount (n : Nat) {grain : Nat} (hgrain : 0 < grain) :
    n ≤ chunkCount n grain * grain := by
  have hdiv := Nat.div_add_mod n grain
  have hmod := Nat.mod_lt n hgrain
  rw [chunkCount, Nat.add_mul, Nat.mul_comm]
  split <;> omega

theorem chunkCount_le {n grain : Nat} (hgrain : 1 < grain) (hn : 0 < n) :
    chunkCount n grain ≤ n := by
  have hdiv := Nat.div_lt_self hn hgrain
  unfold chunkCount
  split <;> omega

theorem chunkCount_pos {n grain : Nat} (hn : 0 < n) : 0 < chunkCount n grain := by
  have hdiv := Nat.div_add_mod n grain
  apply Nat.pos_of_ne_zero
  intro hzero
  obtain ⟨hquotient, hrem⟩ := Nat.add_eq_zero_iff.1 hzero
  have hmod : n % grain = 0 := by
    by_contra hne
    rw [if_pos hne] at hrem
    omega
  rw [hquotient] at hdiv
  omega

theorem submittedTasks_flatten {hw grain n : Nat} (hhw : 0 < hw) (hgrain : 0 < grain)
    (hn : 0 < n) : (submittedTasks hw grain n).flatten = List.range n := by
  have hcount := le_mul_chunkCount n hgrain
  have hpos := @chunkCount_pos n grain hn
  unfold submittedTasks
  generalize chunkCount n grain = chunks at hcount hpos ⊢
  have htasks : 0 < min chunks (hw * 8) := by omega
  have hrem := Nat.mod_lt chunks htasks
  rw [← flatMap_def, ← flatMap_assoc, taskChunks_range, Nat.min_eq_right hrem.le,
    Nat.div_add_mod, chunkIndexes_range, Nat.min_eq_right hcount]

theorem autoGrain_pos (workerCount n : Nat) : 64 ≤ autoGrain workerCount n :=
  Nat.le_max_left _ _

/-- Every index is in one task, and the tasks follow each other. -/
theorem parallelFor_flatten (inWorkerThread : Bool) (workerCount n : Nat) :
    (parallelFor inWorkerThread workerCount n).flatten = List.range n := by
  have hgrain := autoGrain_pos workerCount n
  dsimp only [parallelFor]
  split
  · next hzero =>
    rw [hzero]
    rfl
  · next hn =>
    split
    · exact flatten_singleton
    · exact submittedTasks_flatten (Nat.lt_of_lt_of_le Nat.one_pos (Nat.le_max_left _ _))
        (by omega) (Nat.pos_of_ne_zero hn)

/-- There are at most as many tasks as indexes. -/
theorem parallelFor_length_le (inWorkerThread : Bool) (workerCount n : Nat) :
    (parallelFor inWorkerThread workerCount n).length ≤ n := by
  have hgrain := autoGrain_pos workerCount n
  dsimp only [parallelFor]
  split
  · exact Nat.zero_le n
  · next hn =>
    split
    · exact Nat.pos_of_ne_zero hn
    · rw [submittedTasks, length_map, length_range]
      have hcount := chunkCount_le (by omega : 1 < autoGrain workerCount n) (Nat.pos_of_ne_zero hn)
      omega

end JobThreads

/-!
## parallel_for in machine arithmetic

Any range, grain and access pattern, with every `std::size_t` computation
checked: the result is missing where one wraps. What a task or the caller's own
loop passes to `f` is a list of indexes; the calls of `f` return.
-/

namespace JobThreads

variable {n g T t c first C : Nat}

/-- One more than the largest `std::size_t`. -/
def sizeLimit : Nat := 2 ^ 64

/-- `std::vector<JobThread::Ptr>` holds fewer pointers, of sixteen bytes each. -/
def workerLimit : Nat := 2 ^ 59

/-- A result that a `std::size_t` holds. -/
def sized (n : Nat) : Option Nat := if n < sizeLimit then some n else none

theorem sized_eq (h : n < sizeLimit) : sized n = some n := if_pos h

inductive AccessPattern where
  | Linear
  | Strided
  deriving DecidableEq

/-- `run_chunk` -/
def runChunk (first n g c : Nat) : Option (List Nat) := do
  let offset ← sized (c * g)
  let start ← sized (first + offset)
  let blockEnd ← sized (offset + g)
  let stop ← sized (min blockEnd n + first)
  return List.range' start (stop - start)

/-- `for (c = t; c < chunk_count; c += task_count)`, in at most `fuel` turns. -/
def stridedChunks (chunkCount taskCount : Nat) : Nat → Nat → Option (List Nat)
  | 0, c => if c < chunkCount then none else some []
  | fuel + 1, c =>
    if c < chunkCount then do
      let next ← sized (c + taskCount)
      let rest ← stridedChunks chunkCount taskCount fuel next
      return c :: rest
    else some []

def linearChunks (chunkCount taskCount t : Nat) : Option (List Nat) := do
  let base := chunkCount / taskCount
  let rem := chunkCount % taskCount
  let before ← sized (t * base)
  let beginChunk ← sized (before + min t rem)
  let count ← sized (base + if t < rem then 1 else 0)
  let endChunk ← sized (beginChunk + count)
  return List.range' beginChunk (endChunk - beginChunk)

/-- The chunks of the task `t`. -/
def chunksOf (mode : AccessPattern) (chunkCount taskCount t : Nat) : Option (List Nat) :=
  match mode with
  | .Strided => stridedChunks chunkCount taskCount chunkCount t
  | .Linear => linearChunks chunkCount taskCount t

def runTask (mode : AccessPattern) (first n g chunkCount taskCount t : Nat) :
    Option (List Nat) := do
  let chunks ← chunksOf mode chunkCount taskCount t
  let indexes ← chunks.mapM (runChunk first n g)
  return indexes.flatten

/-- `max(min_grain, ceil_div)` unless the caller chose a grain. -/
def chosenGrain (workerCount n grain : Nat) : Nat :=
  if grain = 0 then autoGrain workerCount n else grain

/-- What the calling thread runs itself, or the tasks it submits, each with its indexes. -/
def parallelForRange (mode : AccessPattern) (inWorkerThread : Bool)
    (workerCount first last grain : Nat) : Option (List (List Nat)) :=
  if last ≤ first then some []
  else if inWorkerThread then some [List.range' first (last - first)]
  else do
    let n := last - first
    let hw := max 1 workerCount
    let k ← sized (hw * 8)
    let g := chosenGrain workerCount n grain
    if n ≤ g ∨ hw = 1 then return [List.range' first n]
    else
      let taskCount := min (chunkCount n g) k
      (List.range taskCount).mapM (runTask mode first n g (chunkCount n g) taskCount)

theorem mapM_of_some {α : Type} {β : Type} {f : α → Option β} {g : α → β} {l : List α}
    (h : ∀ x ∈ l, f x = some (g x)) : l.mapM f = some (l.map g) := by
  induction l with
  | nil => rfl
  | cons x l ih =>
    rw [List.mapM_cons, h x (by simp), ih fun y hy => h y (List.mem_cons_of_mem _ hy)]
    rfl

theorem mul_lt_of_lt_chunkCount (hc : c < chunkCount n g) : c * g < n := by
  have hdiv := Nat.div_add_mod n g
  rw [Nat.mul_comm] at hdiv
  unfold chunkCount at hc
  split at hc
  · have hle := Nat.mul_le_mul_right g (show c ≤ n / g by omega)
    omega
  · have hle := Nat.mul_le_mul_right g (show c + 1 ≤ n / g by omega)
    have hpos : g ≠ 0 := by
      rintro rfl
      simp at hc
    rw [Nat.succ_mul] at hle
    omega

theorem chunkCount_le_self (n g : Nat) : chunkCount n g ≤ n := by
  rcases Nat.eq_zero_or_pos (chunkCount n g) with hzero | hpos
  · omega
  · -- The last chunk begins before `n`.
    have hlast := @mul_lt_of_lt_chunkCount n g (chunkCount n g - 1) (by omega)
    rcases Nat.eq_zero_or_pos g with rfl | hg
    · have hone : chunkCount n 0 ≤ 1 := by
        simp only [chunkCount]
        split <;> omega
      omega
    · have hle := Nat.le_mul_of_pos_right (chunkCount n g - 1) hg
      omega

/-- Where `offset + g` fits, all of the chunk does. -/
theorem runChunk_eq (hlast : first + n < sizeLimit) (hsum : n + g ≤ sizeLimit)
    (hc : c < chunkCount n g) :
    runChunk first n g c = some ((chunkIndexes n g c).map (first + ·)) := by
  have hoffset := mul_lt_of_lt_chunkCount hc
  unfold runChunk
  rw [sized_eq (show c * g < sizeLimit by omega)]
  simp only [Option.bind_eq_bind, Option.bind_some]
  rw [sized_eq (show first + c * g < sizeLimit by omega),
    Option.bind_some, sized_eq (show c * g + g < sizeLimit by omega), Option.bind_some,
    sized_eq (show min (c * g + g) n + first < sizeLimit by omega), Option.bind_some,
    chunkIndexes, List.map_add_range']
  congr 2
  omega

theorem linearChunks_eq (ht : t < T) (hC : C < sizeLimit) :
    linearChunks C T t = some (taskChunks C T t) := by
  have hdiv := Nat.div_add_mod C T
  have hbefore := Nat.mul_le_mul_right (C / T) ht.le
  have hthrough := Nat.mul_le_mul_right (C / T) ht
  rw [Nat.succ_mul] at hthrough
  -- The blocks of the first tasks and this one end at `C` or before.
  have hend : t * (C / T) + min t (C % T) + (C / T + if t < C % T then 1 else 0) ≤ C := by
    split <;> omega
  unfold linearChunks
  simp only [Option.bind_eq_bind]
  rw [sized_eq (show t * (C / T) < sizeLimit by omega), Option.bind_some,
    sized_eq (show t * (C / T) + min t (C % T) < sizeLimit by omega), Option.bind_some,
    sized_eq (show C / T + (if t < C % T then 1 else 0) < sizeLimit by omega), Option.bind_some,
    sized_eq (hend.trans_lt hC), Option.bind_some, Nat.add_sub_cancel_left]
  rfl

theorem chunksOf_linear (ht : t < T) (hC : C < sizeLimit) :
    chunksOf .Linear C T t = some (taskChunks C T t) :=
  linearChunks_eq ht hC

/-- The loop of a strided task runs over the chunks of one remainder. -/
theorem stridedChunks_spec {C T : Nat} (hT : 0 < T) (hlimit : C + T ≤ sizeLimit) {fuel c : Nat}
    (hfuel : C ≤ c + fuel) : ∃ chunks, stridedChunks C T fuel c = some chunks ∧ chunks.Nodup ∧
      ∀ x, x ∈ chunks ↔ (c ≤ x ∧ x < C) ∧ x % T = c % T := by
  induction fuel generalizing c with
  | zero =>
    refine ⟨[], ?_, List.nodup_nil, fun x => ?_⟩
    · rw [stridedChunks, if_neg (by omega)]
    · simp only [List.not_mem_nil, false_iff]
      omega
  | succ fuel ih =>
    by_cases hc : c < C
    · obtain ⟨rest, hrest, hnodup, hmem⟩ := @ih (c + T) (by omega)
      refine ⟨c :: rest, ?_, List.nodup_cons.2 ⟨?_, hnodup⟩, fun x => ?_⟩
      · rw [stridedChunks, if_pos hc, sized_eq (show c + T < sizeLimit by omega)]
        simp only [Option.bind_eq_bind, Option.bind_some, hrest]
        rfl
      · rw [hmem]
        omega
      · rw [List.mem_cons, hmem, Nat.add_mod_right]
        constructor
        · rintro (rfl | ⟨hx, hmod⟩)
          · exact ⟨⟨le_rfl, hc⟩, rfl⟩
          · exact ⟨⟨by omega, hx.2⟩, hmod⟩
        · rintro ⟨hx, hmod⟩
          by_cases heq : x = c
          · exact Or.inl heq
          · have hdvd := Nat.dvd_of_mod_eq_zero (Nat.sub_mod_eq_zero_of_mod_eq hmod)
            have hle := Nat.le_of_dvd (by omega) hdvd
            exact Or.inr ⟨by omega, hmod⟩
    · refine ⟨[], ?_, List.nodup_nil, fun x => ?_⟩
      · rw [stridedChunks, if_neg hc]
      · simp only [List.not_mem_nil, false_iff]
        omega

/-- The tasks share the chunks among them. -/
theorem chunksOf_spec (mode : AccessPattern) {C T : Nat} (hT : 0 < T) (hC : C < sizeLimit)
    (hlimit : C + T ≤ sizeLimit) : ∃ chunks : Nat → List Nat,
      (∀ t < T, chunksOf mode C T t = some (chunks t)) ∧
        ((List.range T).flatMap chunks).Perm (List.range C) := by
  cases mode with
  | Linear =>
    refine ⟨taskChunks C T, fun t ht => chunksOf_linear ht hC, ?_⟩
    rw [taskChunks_range, Nat.min_eq_right (Nat.mod_lt C hT).le, Nat.div_add_mod]
  | Strided =>
    choose! chunks hchunks using fun t : Nat =>
      @stridedChunks_spec C T hT hlimit C t (Nat.le_add_left C t)
    refine ⟨chunks, fun t _ => (hchunks t).1, ?_⟩
    refine (List.perm_ext_iff_of_nodup ?_ List.nodup_range).2 fun x => ?_
    · refine List.nodup_flatMap.2 ⟨fun t _ => (hchunks t).2.1, ?_⟩
      refine List.pairwise_lt_range.imp_of_mem fun {t t'} ht ht' hlt => ?_
      refine List.disjoint_left.2 fun x hx hx' => ?_
      have hmod := ((hchunks t).2.2 x).1 hx
      have hmod' := ((hchunks t').2.2 x).1 hx'
      rw [Nat.mod_eq_of_lt (List.mem_range.1 ht)] at hmod
      rw [Nat.mod_eq_of_lt (List.mem_range.1 ht')] at hmod'
      omega
    · simp only [List.mem_flatMap, List.mem_range, (hchunks _).2.2]
      constructor
      · rintro ⟨t, -, hx, -⟩
        exact hx.2
      · intro hx
        exact ⟨x % T, Nat.mod_lt x hT, ⟨Nat.mod_le x T, hx⟩, (Nat.mod_mod x T).symm⟩

theorem chunks_range (hg : 0 < g) :
    ((List.range (chunkCount n g)).flatMap fun c => (chunkIndexes n g c).map (first + ·)) =
      List.range' first n := by
  rw [← List.map_flatMap, chunkIndexes_range, Nat.min_eq_right (le_mul_chunkCount n hg),
    List.range_eq_range', List.map_add_range', Nat.add_zero]

theorem runTask_eq {mode : AccessPattern} {chunks : List Nat} (hlast : first + n < sizeLimit)
    (hsum : n + g ≤ sizeLimit) (hchunks : chunksOf mode (chunkCount n g) T t = some chunks)
    (hbelow : ∀ c ∈ chunks, c < chunkCount n g) :
    runTask mode first n g (chunkCount n g) T t =
      some (chunks.flatMap fun c => (chunkIndexes n g c).map (first + ·)) := by
  have hrun := mapM_of_some fun c hc => runChunk_eq hlast hsum (hbelow c hc)
  simp only [runTask, hchunks, Option.bind_eq_bind, Option.bind_some, hrun]
  rfl

theorem tasks_cover (mode : AccessPattern) {first n g T : Nat} (hlast : first + n < sizeLimit)
    (hn : n ≤ 2 ^ 63) (hg : 0 < g) (hgn : g < n) (hT : 0 < T) (hle : T ≤ chunkCount n g) :
    ∃ tasks, (List.range T).mapM (runTask mode first n g (chunkCount n g) T) = some tasks ∧
      tasks.flatten.Perm (List.range' first n) := by
  have hcount := chunkCount_le_self n g
  have hhalf : (2 : Nat) ^ 63 + 2 ^ 63 = sizeLimit := by decide
  obtain ⟨chunks, hchunks, hperm⟩ :=
    @chunksOf_spec mode (chunkCount n g) T hT (by omega) (by omega)
  refine ⟨(List.range T).map fun t =>
    (chunks t).flatMap fun c => (chunkIndexes n g c).map (first + ·), ?_, ?_⟩
  · refine mapM_of_some fun t ht => ?_
    refine runTask_eq hlast (by omega) (hchunks t (List.mem_range.1 ht)) fun c hc => ?_
    exact List.mem_range.1 (hperm.mem_iff.1 (List.mem_flatMap.2 ⟨t, ht, hc⟩))
  · rw [← List.flatMap_def, ← List.flatMap_assoc, ← chunks_range hg]
    exact hperm.flatMap_right _

/-- Whatever the grain, the pattern and the caller: nothing wraps, and every index is passed to
`f` exactly once. -/
theorem parallelForRange_covers (mode : AccessPattern) (inWorkerThread : Bool)
    {workerCount first last : Nat} (grain : Nat) (hworkers : workerCount < workerLimit)
    (hle : first ≤ last) (hlast : last < sizeLimit) (hn : last - first ≤ 2 ^ 63) :
    ∃ tasks, parallelForRange mode inWorkerThread workerCount first last grain = some tasks ∧
      tasks.flatten.Perm (List.range' first (last - first)) := by
  unfold parallelForRange
  split
  · refine ⟨[], rfl, ?_⟩
    rw [show last - first = 0 by omega]
    exact List.Perm.refl _
  · split
    · refine ⟨_, rfl, ?_⟩
      rw [List.flatten_singleton]
    · have hk : max 1 workerCount * 8 < sizeLimit := by
        have hlimit : workerLimit * 8 < sizeLimit := by decide
        have hone : 1 ≤ workerLimit := by decide
        omega
      simp only [sized_eq hk, Option.bind_eq_bind, Option.bind_some]
      split
      · refine ⟨_, rfl, ?_⟩
        rw [List.flatten_singleton]
      · rename_i hserial
        have hg : 0 < chosenGrain workerCount (last - first) grain := by
          have hauto := autoGrain_pos workerCount (last - first)
          unfold chosenGrain
          split <;> omega
        have hpos := @chunkCount_pos (last - first)
          (chosenGrain workerCount (last - first) grain) (by omega)
        exact tasks_cover mode (by omega) hn hg (by omega) (by omega) (Nat.min_le_left _ _)

/-- Nine indexes in chunks of two for three workers, each task with chunks apart. -/
theorem parallelForRange_strided : (3 < workerLimit ∧ 5 ≤ 14 ∧ 14 < sizeLimit ∧
    14 - 5 ≤ 2 ^ 63) ∧
      ∃ tasks, parallelForRange .Strided false 3 5 14 2 = some tasks ∧
        tasks.flatten.Perm (List.range' 5 (14 - 5)) :=
  ⟨by decide, parallelForRange_covers .Strided false 2 (by decide) (by decide) (by decide)
    (by decide)⟩

end JobThreads
