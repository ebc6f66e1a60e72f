import OddBuilder.Library.ChunkedFold
import OddBuilder.Threads.ParallelFor
import Mathlib.Data.Int.Range

/-!
# parallel_reduce

The two reductions. `parallel_reduce` cuts a range of iterators and starts each
chunk from its first element. `parallel_reduce_ref` cuts a range of indexes,
computes the ends of its chunks as `std::size_t`, and starts each chunk from
`init`. The room for the partial results is not limited.
-/

namespace JobThreads

open ChunkedFold List

variable {g fuel : Nat} {ix : IndexType} {i last : Int}

/-- A value of `std::size_t` arithmetic, which wraps. -/
def wrapped (n : Int) : Int := n % 2 ^ 64

/-- An integer type of at most 64 bits for the indexes. -/
structure IndexType where
  low : Int
  high : Int
  signed_range : low = 0 ∧ high < 2 ^ 64 ∨ -2 ^ 63 ≤ low ∧ low < 0 ∧ high < 2 ^ 63
  high_pos : 0 < high
  width_dvd : high - low + 1 ∣ 2 ^ 64

namespace IndexType

variable (ix : IndexType)

def Holds (i : Int) : Prop := ix.low ≤ i ∧ i ≤ ix.high

/-- `static_cast<Index>` -/
def cast (n : Int) : Int := (n - ix.low) % (ix.high - ix.low + 1) + ix.low

/-- The largest difference of two indexes; the narrow types are promoted to `int`. -/
def differenceHigh : Int := max ix.high 2147483647

/-- `std::size_t` -/
def size : IndexType where
  low := 0
  high := 2 ^ 64 - 1
  signed_range := by decide
  high_pos := by decide
  width_dvd := by decide

end IndexType

def reduceGrain (workerCount n grain : Nat) : Option Nat := do
  let parts ← sized (max 1 workerCount * 4)
  return if grain = 0 then max 1 (n / parts) else grain

variable {α T : Type}

/-- The chunks of an iterator range, in at most `fuel` turns. -/
def iteratorChunks (g : Nat) : Nat → List α → Option (List (List α))
  | 0, xs => if xs.isEmpty then some [] else none
  | fuel + 1, xs =>
    if xs.isEmpty then some []
    else do
      let rest ← iteratorChunks g fuel (xs.drop (min g xs.length))
      return xs.take (min g xs.length) :: rest

/-- The loop of a submitted task; `T acc{}` is left for an empty chunk only. -/
def reduceChunk (mapFn : α → T) (reduceFn : T → T → T) (acc : T) : List α → T
  | [] => acc
  | x :: rest => rest.foldl (fun acc y => reduceFn acc (mapFn y)) (mapFn x)

def parallelReduce (workerCount : Nat) (range : List α) (init : T) (mapFn : α → T)
    (reduceFn : T → T → T) (default : T) (grain : Nat) : Option T :=
  if range.length = 0 then some init
  else do
    let g ← reduceGrain workerCount range.length grain
    let chunks ← iteratorChunks g range.length range
    let partials := chunks.map (reduceChunk mapFn reduceFn default)
    return partials.foldl reduceFn init

/-- Begins and ends of the chunks of an index range, in at most `fuel` turns. -/
def indexChunks (ix : IndexType) (g : Nat) (last : Int) : Nat → Int → Option (List (Int × Int))
  | 0, i => if i < last then none else some []
  | fuel + 1, i =>
    if i < last then do
      let chunkEnd := ix.cast (min (wrapped (i + g)) (wrapped last))
      let rest ← indexChunks ix g last fuel chunkEnd
      return (i, chunkEnd) :: rest
    else some []

def parallelReduceRef (fuel : Nat) (ix : IndexType) (workerCount : Nat) (first last : Int)
    (init : T) (mapFn : Int → T) (reduceFn : T → T → T) (grain : Nat) : Option T :=
  if last ≤ first then some init
  else if ix.differenceHigh < last - first then none
  else do
    let g ← reduceGrain workerCount (last - first).toNat grain
    let chunks ← indexChunks ix g last fuel first
    let partials := chunks.map fun chunk =>
      (Int.range chunk.1 chunk.2).foldl (fun acc j => reduceFn acc (mapFn j)) init
    return partials.foldl reduceFn init

/-- The grain of a pool that there can be. -/
def grainOf (workerCount n grain : Nat) : Nat :=
  if grain = 0 then max 1 (n / (max 1 workerCount * 4)) else grain

theorem grainOf_pos (workerCount n grain : Nat) : 0 < grainOf workerCount n grain := by
  unfold grainOf
  split <;> omega

theorem reduceGrain_eq {workerCount : Nat} (hworkers : workerCount < workerLimit)
    (n grain : Nat) : reduceGrain workerCount n grain = some (grainOf workerCount n grain) := by
  have hparts : max 1 workerCount * 4 < sizeLimit := by
    have hlimit : workerLimit * 4 < sizeLimit := by decide
    omega
  rw [reduceGrain, sized_eq hparts]
  rfl

theorem iteratorChunks_spec (hg : 0 < g) {xs : List α} (hfuel : xs.length ≤ fuel) :
    ∃ chunks, iteratorChunks g fuel xs = some chunks ∧
      chunks.flatten = xs ∧ ∀ chunk ∈ chunks, chunk ≠ [] := by
  induction fuel generalizing xs with
  | zero =>
    obtain rfl := eq_nil_of_length_eq_zero (Nat.le_zero.1 hfuel)
    exact ⟨[], rfl, rfl, by simp⟩
  | succ fuel ih =>
    cases xs with
    | nil => exact ⟨[], rfl, rfl, by simp⟩
    | cons x xs =>
      have hstep : 0 < min g (x :: xs).length := by simp [hg]
      generalize hwidth : min g (x :: xs).length = width at hstep
      obtain ⟨rest, hrest, hflat, hne⟩ := @ih ((x :: xs).drop width) (by
        rw [length_drop]
        omega)
      refine ⟨(x :: xs).take width :: rest, ?_, ?_, ?_⟩
      · simp only [iteratorChunks, hwidth, hrest]
        rfl
      · rw [flatten_cons, hflat, take_append_drop]
      · intro chunk hmem
        rcases mem_cons.1 hmem with rfl | hmem
        · rw [Ne, take_eq_nil_iff]
          rintro (hzero | hnil)
          · omega
          · cases hnil
        · exact hne chunk hmem

theorem reduceChunk_eq (mapFn : α → T) (reduceFn : T → T → T) (acc : T) (chunk : List α) :
    reduceChunk mapFn reduceFn acc chunk = unseeded reduceFn acc (chunk.map mapFn) := by
  cases chunk with
  | nil => rfl
  | cons x rest => rw [reduceChunk, map_cons, unseeded, foldl_map]

/-- The first variant is the left fold, for every associative operation. -/
theorem parallelReduce_eq {reduceFn : T → T → T}
    (hassoc : ∀ a b c, reduceFn (reduceFn a b) c = reduceFn a (reduceFn b c)) {workerCount : Nat}
    (hworkers : workerCount < workerLimit) (range : List α) (init : T) (mapFn : α → T)
    (default : T) (grain : Nat) :
    parallelReduce workerCount range init mapFn reduceFn default grain =
      some (range.foldl (fun acc x => reduceFn acc (mapFn x)) init) := by
  unfold parallelReduce
  split
  · rename_i hempty
    obtain rfl := eq_nil_of_length_eq_zero hempty
    rfl
  · obtain ⟨chunks, hchunks, hflat, hne⟩ :=
      iteratorChunks_spec (grainOf_pos workerCount range.length grain) (Nat.le_refl range.length)
    have hfold := @foldl_unseeded T reduceFn hassoc default init (chunks.map (List.map mapFn)) (by
      simpa using hne)
    have hparts : chunks.map (reduceChunk mapFn reduceFn default) =
        (chunks.map (List.map mapFn)).map (unseeded reduceFn default) := by
      rw [map_map]
      exact map_congr_left fun chunk _ => reduceChunk_eq mapFn reduceFn default chunk
    simp only [reduceGrain_eq hworkers, hchunks, Option.bind_eq_bind, Option.bind_some]
    rw [hparts, hfold, ← map_flatten, hflat, foldl_map]
    rfl

theorem range_append {a b c : Int} (hab : a ≤ b) (hbc : b ≤ c) :
    Int.range a b ++ Int.range b c = Int.range a c := by
  have hsum : (c - a).toNat = (b - a).toNat + (c - b).toNat := by omega
  rw [Int.range, Int.range, Int.range, hsum, range_add, map_append, map_map]
  congr 1
  refine map_congr_left fun k _ => ?_
  simp only [Function.comp_apply]
  omega

theorem range_cons {a b : Int} (hab : a < b) : Int.range a b = a :: Int.range (a + 1) b := by
  rw [← range_append (show a ≤ a + 1 by omega) (show a + 1 ≤ b by omega)]
  simp [Int.range]

theorem cast_add (hi : ix.Holds i) : ix.cast i = i ∧ ix.cast (i + 2 ^ 64) = i := by
  obtain ⟨k⟩ := ix.width_dvd
  have hbounds : 0 ≤ i - ix.low ∧ i - ix.low < ix.high - ix.low + 1 := by
    have hlow := hi.1
    have hhigh := hi.2
    omega
  have hsmall := Int.emod_eq_of_lt hbounds.1 hbounds.2
  have hshift : i + 2 ^ 64 - ix.low = i - ix.low + (ix.high - ix.low + 1) * k := by omega
  constructor
  · rw [IndexType.cast]
    omega
  · rw [IndexType.cast, hshift, Int.add_mul_emod_self_left]
    omega

theorem wrapped_eq {n : Int} (hn : 0 ≤ n) (hlt : n < 2 ^ 64) : wrapped n = n :=
  Int.emod_eq_of_lt hn hlt

theorem wrapped_neg {n : Int} (hn : -2 ^ 64 ≤ n) (hlt : n < 0) : wrapped n = n + 2 ^ 64 := by
  unfold wrapped
  omega

/-- What the ends of the chunks may not reach: as a `std::size_t` a negative index is large. -/
def endBound (last : Int) : Int := if last < 0 then 0 else 2 ^ 64

/-- The difference is a number, and no chunk ends where `i + g` starts again from zero. -/
def Fits (ix : IndexType) (first last : Int) (g : Nat) : Prop :=
  first < last → last - first ≤ ix.differenceHigh ∧
    ∀ j : Nat, first + j * g < last → first + j * g + g < endBound last

/-- The next chunk ends one grain further on, or at the end of the range. -/
theorem chunkEnd_eq (hg : 0 < g) (hi : ix.low ≤ i) (hlast : ix.Holds last) (hlt : i < last)
    (hend : i + g < endBound last) :
    ix.cast (min (wrapped (i + g)) (wrapped last)) = min (i + g) last ∨
      ix.cast (min (wrapped (i + g)) (wrapped last)) = last := by
  have hrange := ix.signed_range
  have hhigh := hlast.2
  have hholds : ix.Holds (min (i + g) last) := ⟨by omega, by omega⟩
  unfold endBound at hend
  split at hend
  · rename_i hneg
    left
    rw [wrapped_neg (by omega) hend, wrapped_neg (by omega) hneg,
      show min (i + g + 2 ^ 64) (last + 2 ^ 64) = min (i + g) last + 2 ^ 64 by omega]
    exact (cast_add hholds).2
  · rw [wrapped_eq (n := last) (by omega) (by omega)]
    by_cases hsum : i + g < 0
    · right
      rw [wrapped_neg (by omega) hsum, min_eq_right (by omega)]
      exact (cast_add hlast).1
    · left
      rw [wrapped_eq (by omega) hend]
      exact (cast_add hholds).1

/-- The indexes of the chunks. -/
def indexesOf (chunks : List (Int × Int)) : List Int :=
  chunks.flatMap fun chunk => Int.range chunk.1 chunk.2

theorem indexChunks_done {ix : IndexType} {g fuel : Nat} {last i : Int} (h : last ≤ i) :
    indexChunks ix g last fuel i = some [] := by
  cases fuel with
  | zero => exact if_neg (by omega)
  | succ fuel => exact if_neg (by omega)

theorem indexChunks_spec (hg : 0 < g) (hlast : ix.Holds last) (hi : ix.low ≤ i) (hle : i ≤ last)
    (hends : ∀ j : Nat, i + j * g < last → i + j * g + g < endBound last)
    (hfuel : last ≤ i + fuel) : ∃ chunks, indexChunks ix g last fuel i = some chunks ∧
      indexesOf chunks = Int.range i last ∧ ∀ chunk ∈ chunks, chunk.1 < chunk.2 := by
  induction fuel generalizing i with
  | zero =>
    have hdone : last = i := by omega
    refine ⟨[], indexChunks_done (by omega), ?_, by simp⟩
    simp [indexesOf, Int.range, hdone]
  | succ fuel ih =>
    by_cases hlt : i < last
    · have hfirst := hends 0 (by simpa using hlt)
      simp only [Int.natCast_zero, Int.zero_mul, Int.add_zero] at hfirst
      have hnext := chunkEnd_eq hg hi hlast hlt hfirst
      generalize hchunk : ix.cast (min (wrapped (i + g)) (wrapped last)) = chunkEnd at hnext
      obtain ⟨rest, hrest, hindexes, hgrows⟩ := @ih chunkEnd (by omega) (by omega)
        (fun j hj => by
          have hstep := hends (j + 1)
          simp only [Int.natCast_add, Int.add_mul] at hstep
          have hprod : 0 ≤ (j : Int) * g := Int.mul_nonneg (by omega) (by omega)
          omega) (by omega)
      refine ⟨(i, chunkEnd) :: rest, ?_, ?_, ?_⟩
      · simp only [indexChunks, if_pos hlt, hchunk, hrest]
        rfl
      · rw [← range_append (show i ≤ chunkEnd by omega)
          (show chunkEnd ≤ last by omega), ← hindexes]
        rfl
      · intro chunk hmem
        rcases mem_cons.1 hmem with rfl | hmem
        · omega
        · exact hgrows chunk hmem
    · refine ⟨[], indexChunks_done (by omega), ?_, by simp⟩
      rw [show last = i by omega]
      simp [indexesOf, Int.range]

/-- Where nothing wraps and the seed is absorbed, the second variant is the left fold too. -/
theorem parallelReduceRef_eq {reduceFn : T → T → T}
    (hassoc : ∀ a b c, reduceFn (reduceFn a b) c = reduceFn a (reduceFn b c)) {init : T}
    (habsorbs : Absorbs reduceFn init) {ix : IndexType} {workerCount : Nat}
    (hworkers : workerCount < workerLimit) {first last : Int} (hfirst : ix.Holds first)
    (hlast : ix.Holds last) {grain : Nat}
    (hfits : Fits ix first last (grainOf workerCount (last - first).toNat grain))
    (mapFn : Int → T) :
    ∃ fuel, parallelReduceRef fuel ix workerCount first last init mapFn reduceFn grain =
      some ((Int.range first last).foldl (fun acc j => reduceFn acc (mapFn j)) init) := by
  refine ⟨(last - first).toNat, ?_⟩
  unfold parallelReduceRef
  split
  · simp [Int.range, show (last - first).toNat = 0 by omega]
  · obtain ⟨hdifference, hends⟩ := hfits (by omega)
    obtain ⟨chunks, hchunks, hindexes, hgrows⟩ := indexChunks_spec (grainOf_pos _ _ _) hlast
      hfirst.1 (by omega) hends (show last ≤ first + ((last - first).toNat : Int) by omega)
    have hparts : (chunks.map fun chunk => (Int.range chunk.1 chunk.2).foldl
        (fun acc j => reduceFn acc (mapFn j)) init) =
        (chunks.map fun chunk => (Int.range chunk.1 chunk.2).map mapFn).map
          (List.foldl reduceFn init) := by
      rw [map_map]
      exact map_congr_left fun chunk _ => foldl_map.symm
    have hne : ∀ part ∈ chunks.map fun chunk => (Int.range chunk.1 chunk.2).map mapFn,
        part ≠ [] := by
      intro part hmem
      obtain ⟨chunk, hchunk, rfl⟩ := mem_map.1 hmem
      rw [range_cons (hgrows chunk hchunk)]
      simp
    have hflat : (chunks.map fun chunk => (Int.range chunk.1 chunk.2).map mapFn).flatten =
        (Int.range first last).map mapFn := by
      rw [← hindexes, indexesOf, map_flatMap, flatMap_def]
    rw [if_neg (by omega)]
    simp only [reduceGrain_eq hworkers, hchunks, Option.bind_eq_bind, Option.bind_some]
    rw [hparts, foldl_seeded hassoc habsorbs hne, hflat, foldl_map]
    rfl

/-- A run that ends passes no index before one at or below its start. -/
theorem indexChunks_head {chunks : List (Int × Int)}
    (hchunks : indexChunks ix g last fuel i = some chunks) (hlt : i < last) :
    ∃ x rest, indexesOf chunks = x :: rest ∧ x ≤ i := by
  induction fuel generalizing i chunks with
  | zero =>
    rw [indexChunks, if_pos hlt] at hchunks
    cases hchunks
  | succ fuel ih =>
    rw [indexChunks, if_pos hlt] at hchunks
    generalize ix.cast (min (wrapped (i + g)) (wrapped last)) = chunkEnd at hchunks
    obtain ⟨rest, hrest, heq⟩ := Option.bind_eq_some_iff.1 hchunks
    obtain rfl := Option.some.inj heq
    by_cases hgrows : i < chunkEnd
    · refine ⟨i, Int.range (i + 1) chunkEnd ++ indexesOf rest, ?_, le_rfl⟩
      rw [indexesOf, flatMap_cons, range_cons hgrows]
      rfl
    · obtain ⟨x, tail, hx, hle⟩ := ih hrest (by omega)
      refine ⟨x, tail, ?_, by omega⟩
      rw [← hx]
      simp [Int.range, show (chunkEnd - i).toNat = 0 by omega, indexesOf]

/-- With 64-bit indexes the right indexes come from chunks that do not wrap only. -/
theorem fits_of_indexes {ix : IndexType} (hwide : ix.high - ix.low + 1 = 2 ^ 64) {g : Nat}
    (hg : 0 < g) (hsize : g < 2 ^ 64) {last : Int} (hlast : ix.Holds last) {fuel : Nat} {i : Int}
    (hi : ix.low ≤ i) (hlt : i < last) {chunks : List (Int × Int)}
    (hchunks : indexChunks ix g last fuel i = some chunks)
    (hindexes : indexesOf chunks = Int.range i last) (j : Nat) (hj : i + j * g < last) :
    i + j * g + g < endBound last := by
  induction fuel generalizing i chunks j with
  | zero =>
    rw [indexChunks, if_pos hlt] at hchunks
    cases hchunks
  | succ fuel ih =>
    rw [indexChunks, if_pos hlt] at hchunks
    generalize hchunk : ix.cast (min (wrapped (i + g)) (wrapped last)) = chunkEnd at hchunks
    obtain ⟨rest, hrest, heq⟩ := Option.bind_eq_some_iff.1 hchunks
    obtain rfl := Option.some.inj heq
    rw [indexesOf, flatMap_cons] at hindexes
    have hrange := ix.signed_range
    have hhigh := hlast.2
    have hprod : 0 ≤ (j : Int) * g := Int.mul_nonneg (by omega) (by omega)
    -- The chunk is not empty, and it does not reach beyond the range.
    have hgrows : i < chunkEnd := by
      by_contra hempty
      obtain ⟨x, tail, hx, hle⟩ := indexChunks_head hrest (by omega)
      rw [range_cons hlt, show Int.range i chunkEnd = [] by
        simp [Int.range, show (chunkEnd - i).toNat = 0 by omega], nil_append,
        show (rest.flatMap fun chunk => Int.range chunk.1 chunk.2) = indexesOf rest from rfl, hx,
        List.cons.injEq] at hindexes
      unfold IndexType.cast wrapped at hchunk
      rw [hwide] at hchunk
      omega
    have hends : chunkEnd ≤ last := by
      by_contra hbeyond
      have hmem : last ∈ Int.range i chunkEnd := Int.mem_range_iff.2 ⟨by omega, by omega⟩
      have hmem' : last ∈ Int.range i last := hindexes ▸ mem_append_left _ hmem
      have := (Int.mem_range_iff.1 hmem').2
      omega
    have hfirst : i + g < endBound last := by
      unfold IndexType.cast wrapped at hchunk
      rw [hwide] at hchunk
      unfold endBound
      split <;> omega
    cases j with
    | zero => simpa using hfirst
    | succ j =>
      simp only [Int.natCast_add, Int.add_mul] at hj hprod ⊢
      have hprod' : 0 ≤ (j : Int) * g := Int.mul_nonneg (by omega) (by omega)
      rcases chunkEnd_eq hg hi hlast hlt hfirst with hnext | hnext
      · have hrest' : indexesOf rest = Int.range chunkEnd last := by
          rw [← range_append (show i ≤ chunkEnd by omega) hends] at hindexes
          exact append_cancel_left hindexes
        have hstep := @ih chunkEnd (by omega) (by omega) rest hrest hrest' j (by omega)
        omega
      · -- One chunk from a negative index to the end.
        rw [hchunk] at hnext
        unfold IndexType.cast wrapped at hchunk
        rw [hwide] at hchunk
        unfold endBound at hfirst ⊢
        split at hfirst
        · omega
        · omega

/-- Whatever is mapped, `parallel_reduce` is the left fold. -/
def FoldsIterators (reduceFn : T → T → T) (init default : T) : Prop :=
  ∀ {α : Type} (workerCount : Nat) (range : List α) (mapFn : α → T) (grain : Nat),
    workerCount < workerLimit → parallelReduce workerCount range init mapFn reduceFn default grain =
      some (range.foldl (fun acc x => reduceFn acc (mapFn x)) init)

/-- Whatever is mapped, `parallel_reduce_ref` is the left fold. -/
def FoldsIndexes (ix : IndexType) (workerCount : Nat) (first last : Int) (grain : Nat)
    (reduceFn : T → T → T) (init : T) : Prop :=
  ∀ mapFn : Int → T, ∃ fuel,
    parallelReduceRef fuel ix workerCount first last init mapFn reduceFn grain =
      some ((Int.range first last).foldl (fun acc j => reduceFn acc (mapFn j)) init)

/-- The chunks that a result comes from. -/
theorem parallelReduceRef_some {fuel : Nat} {ix : IndexType} {workerCount : Nat} {first last : Int}
    {init result : T} {mapFn : Int → T} {reduceFn : T → T → T} {grain : Nat}
    (hworkers : workerCount < workerLimit) (hlt : first < last)
    (h : parallelReduceRef fuel ix workerCount first last init mapFn reduceFn grain =
      some result) :
    last - first ≤ ix.differenceHigh ∧ ∃ chunks, indexChunks ix
      (grainOf workerCount (last - first).toNat grain) last fuel first = some chunks ∧
        (chunks.map fun chunk => (Int.range chunk.1 chunk.2).foldl
          (fun acc j => reduceFn acc (mapFn j)) init).foldl reduceFn init = result := by
  rw [parallelReduceRef, if_neg (by omega)] at h
  split at h
  · cases h
  · simp only [reduceGrain_eq hworkers, Option.bind_eq_bind, Option.bind_some] at h
    obtain ⟨chunks, hchunks, heq⟩ := Option.bind_eq_some_iff.1 h
    exact ⟨by omega, chunks, hchunks, Option.some.inj heq⟩

/-- Chunks of one index, from zero. -/
theorem unit_chunks {fuel : Nat} {last : Int} (hlast : last < 2 ^ 64) {i : Int} (hi : 0 ≤ i)
    (hlt : i < last) {chunks : List (Int × Int)}
    (h : indexChunks IndexType.size 1 last fuel i = some chunks) :
    ∃ rest, chunks = (i, i + 1) :: rest ∧ ∃ fuel',
      indexChunks IndexType.size 1 last fuel' (i + 1) = some rest := by
  cases fuel with
  | zero =>
    rw [indexChunks, if_pos hlt] at h
    cases h
  | succ fuel =>
    have hend : IndexType.size.cast (min (wrapped (i + (1 : Nat))) (wrapped last)) = i + 1 := by
      rw [wrapped_eq (by omega) (by omega), wrapped_eq (by omega) hlast, min_eq_left (by omega)]
      exact (cast_add ⟨by simp [IndexType.size]; omega, by simp [IndexType.size]; omega⟩).1
    rw [indexChunks, if_pos hlt] at h
    simp only [hend] at h
    obtain ⟨rest, hrest, heq⟩ := Option.bind_eq_some_iff.1 h
    exact ⟨rest, (Option.some.inj heq).symm, fuel, hrest⟩

theorem fits_small (hlast : last ≤ 2) : Fits IndexType.size 0 last 1 := by
  intro hlt
  refine ⟨by simp only [IndexType.differenceHigh]; omega, fun j hj => ?_⟩
  unfold endBound
  split <;> omega

/-- One index, and two in chunks of one, show what the seed has to absorb. -/
theorem absorbs_of_folds {reduceFn : T → T → T} {init : T}
    (h : ∀ last : Int, IndexType.size.Holds last → last ≤ 2 →
      FoldsIndexes IndexType.size 1 0 last 1 reduceFn init) :
    Absorbs reduceFn init := by
  have hworkers : 1 < workerLimit := by decide
  refine absorbs_of_seeded (fun x => ?_) fun x y => ?_
  · obtain ⟨fuel, hfuel⟩ := h 1 ⟨by decide, by decide⟩ (by omega) fun _ => x
    obtain ⟨-, chunks, hchunks, hresult⟩ := parallelReduceRef_some hworkers (by omega) hfuel
    obtain ⟨rest, rfl, _, hrest⟩ := unit_chunks (by omega) (by omega) (by omega) hchunks
    rw [indexChunks_done (by omega)] at hrest
    obtain rfl := Option.some.inj hrest
    simpa [Int.range] using hresult
  · obtain ⟨fuel, hfuel⟩ := h 2 ⟨by decide, by decide⟩ (by omega) fun j => if j = 0 then x else y
    obtain ⟨-, chunks, hchunks, hresult⟩ := parallelReduceRef_some hworkers (by omega) hfuel
    obtain ⟨rest, rfl, _, hrest⟩ := unit_chunks (by omega) (by omega) (by omega) hchunks
    obtain ⟨rest', rfl, _, hrest'⟩ := unit_chunks (by omega) (by omega) (by omega) hrest
    rw [indexChunks_done (by omega)] at hrest'
    obtain rfl := Option.some.inj hrest'
    simpa [Int.range, range_succ] using hresult

/-- Lists under concatenation show which indexes a run has passed. -/
theorem indexes_of_folds {ix : IndexType} {workerCount : Nat} (hworkers : workerCount < workerLimit)
    {first last : Int} (hlt : first < last) {grain : Nat}
    (h : FoldsIndexes ix workerCount first last grain (· ++ ·) ([] : List Int)) :
    last - first ≤ ix.differenceHigh ∧ ∃ fuel chunks, indexChunks ix
      (grainOf workerCount (last - first).toNat grain) last fuel first = some chunks ∧
        indexesOf chunks = Int.range first last := by
  have hsingletons : ∀ l acc : List Int, l.foldl (fun acc j => acc ++ [j]) acc = acc ++ l := by
    intro l
    induction l with
    | nil => simp
    | cons j l ih =>
      intro acc
      rw [foldl_cons, ih, append_assoc]
      rfl
  obtain ⟨fuel, hfuel⟩ := h fun j => [j]
  obtain ⟨hdifference, chunks, hchunks, hresult⟩ := parallelReduceRef_some hworkers hlt hfuel
  refine ⟨hdifference, fuel, chunks, hchunks, ?_⟩
  simp only [hsingletons, nil_append] at hresult
  rw [← hresult, indexesOf, flatMap_def]
  have hparts : ∀ (parts : List (List Int)) (acc : List Int),
      parts.foldl (· ++ ·) acc = acc ++ parts.flatten := by
    intro parts
    induction parts with
    | nil => simp
    | cons part parts ih =>
      intro acc
      rw [foldl_cons, ih, append_assoc, flatten_cons]
  rw [hparts, nil_append]

/-- Both reductions are the left fold, on all ranges whose chunks fit, exactly if the operation
absorbs the seed; and all operations that do are folded exactly over those ranges. -/
theorem reductions_iff {T : Type} {reduceFn : T → T → T}
    (hassoc : ∀ a b c, reduceFn (reduceFn a b) c = reduceFn a (reduceFn b c)) (init default : T)
    {ix : IndexType} (hwide : ix.high - ix.low + 1 = 2 ^ 64) {workerCount : Nat}
    (hworkers : workerCount < workerLimit) {first last : Int} (hfirst : ix.Holds first)
    (hlast : ix.Holds last) {grain : Nat} (hgrain : grain < 2 ^ 64) :
    (FoldsIterators reduceFn init default ∧
        (∀ (ix : IndexType) (workerCount : Nat) (first last : Int) (grain : Nat),
          workerCount < workerLimit → ix.Holds first → ix.Holds last →
            Fits ix first last (grainOf workerCount (last - first).toNat grain) →
              FoldsIndexes ix workerCount first last grain reduceFn init) ↔
      Absorbs reduceFn init) ∧
    ((∀ (S : Type) (op : S → S → S) (seed : S), (∀ a b c, op (op a b) c = op a (op b c)) →
        Absorbs op seed → FoldsIndexes ix workerCount first last grain op seed) ↔
      Fits ix first last (grainOf workerCount (last - first).toNat grain)) := by
  constructor
  · constructor
    · rintro ⟨-, hindexes⟩
      refine absorbs_of_folds fun last hlast hle => ?_
      exact hindexes _ _ _ _ _ (by decide) ⟨by decide, by decide⟩ hlast (fits_small hle)
    · intro habsorbs
      refine ⟨fun {α} workerCount range mapFn grain hworkers => ?_, ?_⟩
      · exact parallelReduce_eq hassoc hworkers range init mapFn default grain
      · intro ix workerCount first last grain hworkers hfirst hlast hfits mapFn
        exact parallelReduceRef_eq hassoc habsorbs hworkers hfirst hlast hfits mapFn
  · constructor
    · intro hfolds hlt
      have hlists := hfolds (List Int) (· ++ ·) [] (fun a b c => append_assoc a b c)
        (absorbs_of_left_id fun x => nil_append x)
      obtain ⟨hdifference, fuel, chunks, hchunks, hindexes⟩ := indexes_of_folds hworkers hlt hlists
      refine ⟨hdifference, fits_of_indexes hwide (grainOf_pos _ _ _) ?_ hlast hfirst.1 hlt hchunks
        hindexes⟩
      have hrange := ix.signed_range
      have hdiv := Nat.div_le_self (last - first).toNat (max 1 workerCount * 4)
      have hbelow := hfirst.1
      have habove := hlast.2
      unfold grainOf
      split <;> omega
    · intro hfits S op seed hassoc habsorbs mapFn
      exact parallelReduceRef_eq hassoc habsorbs hworkers hfirst hlast hfits mapFn

/-- Sums from zero are right. -/
theorem reductions_sum : FoldsIndexes IndexType.size 4 0 1000 0 (· + ·) (0 : Nat) :=
  ((reductions_iff Nat.add_assoc 0 0
    (show IndexType.size.high - IndexType.size.low + 1 = 2 ^ 64 by decide)
    (show 4 < workerLimit by decide) (show IndexType.size.Holds 0 by constructor <;> decide)
    (show IndexType.size.Holds 1000 by constructor <;> decide) (show 0 < 2 ^ 64 by decide)).2.2
    (fun _ => ⟨by decide, fun j hj => by
      have hgrain : grainOf 4 (1000 - 0 : Int).toNat 0 = 62 := by decide
      rw [hgrain] at hj ⊢
      have hbound : endBound 1000 = 2 ^ 64 := by decide
      omega⟩)) Nat (· + ·) 0 Nat.add_assoc (absorbs_of_left_id Nat.zero_add)

/-- A sum from one: the chunk adds it, and so does the caller. -/
theorem reductions_sum_from_one : ¬ ∀ (T : Type) (reduceFn : T → T → T),
    (∀ a b c, reduceFn (reduceFn a b) c = reduceFn a (reduceFn b c)) → ∀ (init default : T)
      (ix : IndexType) (workerCount : Nat) (first last : Int) (grain : Nat),
        workerCount < workerLimit → ix.Holds first → ix.Holds last →
          FoldsIterators reduceFn init default ∧
            FoldsIndexes ix workerCount first last grain reduceFn init := by
  intro h
  have habsorbs : Absorbs (fun a b : Nat => a + b) 1 :=
    absorbs_of_folds fun last hlast _ => (h Nat (· + ·) Nat.add_assoc 1 0 IndexType.size 1 0 last 1
      (by decide) ⟨by decide, by decide⟩ hlast).2
  have hfront := habsorbs.front 0
  omega

end JobThreads
