import OddBuilder.Io.SizePool

/-!
# Size pools and other users on one page pool

The system is one page pool, the size pools built over it and the addresses
that other users of the page pool hold. Calls of all of them interleave freely.
The other users never give back an address that is the start of a size pool's
span; that the addresses they hold are never such starts is part of what is
proved.
-/

namespace JobIo

open Intervals List JobSizePool

/-- `held` are the addresses that the other users of the page pool obtained and did not give
back. -/
structure PoolSystem where
  pagePool : JobPagePool
  pools : List JobSizePool
  held : List Nat

/-- A call of one of the parties. A size pool is named by its place in the list. -/
inductive SystemOp where
  | create (sizeClass : JobMemSize)
  | poolAlloc (i size alignment : Nat)
  | poolAllocObject (i : Nat)
  | poolFree (i ptr : Nat)
  | poolClear (i : Nat)
  | destroy (i : Nat)
  | alloc (size alignment : Nat)
  | allocPages (pageCount : Nat)
  | free (ptr : Nat)

namespace PoolSystem

variable {s t : JobSizePool} {σ : PoolSystem} {p : JobPagePool} {i x addr j y : Nat}
  {a : SpanAllocation} {e : PageBlock} {front back : List JobSizePool} {held : List Nat}

def init (extent : Option JobMemExtent) (pageSize : Nat) : PoolSystem :=
  ⟨JobPagePool.init extent pageSize, [], []⟩

/-- Let the `i`-th size pool make a call. -/
def onPool (σ : PoolSystem) (i : Nat)
    (call : JobSizePool → JobPagePool → JobSizePool × JobPagePool) : PoolSystem :=
  match σ.pools[i]? with
  | none => σ
  | some s =>
    let (s, pagePool) := call s σ.pagePool
    { σ with pagePool := pagePool, pools := σ.pools.set i s }

/-- Record the answer of the page pool to another user. -/
def hold (σ : PoolSystem) (answer : Nat × JobPagePool) : PoolSystem :=
  { σ with
    pagePool := answer.2
    held := if answer.1 == nullptr then σ.held else answer.1 :: σ.held }

def step (σ : PoolSystem) : SystemOp → PoolSystem
  | .create sizeClass => { σ with pools := σ.pools ++ [JobSizePool.init sizeClass σ.pagePool] }
  | .poolAlloc i size alignment =>
    σ.onPool i (fun s pagePool => (s.alloc pagePool size alignment).2)
  | .poolAllocObject i => σ.onPool i (fun s pagePool => (s.allocObject pagePool).2)
  | .poolFree i ptr => σ.onPool i (fun s pagePool => ((s.free ptr).2, pagePool))
  | .poolClear i => σ.onPool i JobSizePool.clear
  | .destroy i =>
    let σ := σ.onPool i JobSizePool.clear
    { σ with pools := σ.pools.eraseIdx i }
  | .alloc size alignment => σ.hold (σ.pagePool.alloc size alignment)
  | .allocPages pageCount => σ.hold (σ.pagePool.allocPages pageCount)
  | .free ptr =>
    { σ with
      pagePool := (σ.pagePool.free ptr).2
      held := if (σ.pagePool.free ptr).1 then σ.held.filter (· != ptr) else σ.held }

def spanAddrs (σ : PoolSystem) : List Nat := σ.pools.flatMap JobSizePool.spanAddrs

/-- Other users do not give back what a size pool obtained. -/
def Permitted (σ : PoolSystem) : SystemOp → Prop
  | .free ptr => ptr ∉ σ.spanAddrs
  | _ => True

inductive Reachable (start : PoolSystem) : PoolSystem → Prop
  | start : Reachable start start
  | step {σ : PoolSystem} (op : SystemOp) :
    Reachable start σ → σ.Permitted op → Reachable start (σ.step op)

/-- What holds of the system in every reachable state. -/
structure SystemInv (σ : PoolSystem) : Prop where
  ready : σ.pagePool.Ready
  holds : ∀ s ∈ σ.pools, JobSizePool.Holds σ.pagePool s
  distinct : σ.spanAddrs.Nodup
  held_live : ∀ ptr ∈ σ.held, ∃ e ∈ σ.pagePool.allocations.entries, ptr = σ.pagePool.ptrAtPage e.1
  held_apart : ∀ ptr ∈ σ.held, ptr ∉ σ.spanAddrs

theorem cell_of_getElem? {α : Type} {l : List α} {a : α} (h : l[i]? = some a) :
    ∃ front back, l = front ++ a :: back ∧ i = front.length := by
  obtain ⟨hlt, rfl⟩ := List.getElem?_eq_some_iff.mp h
  refine ⟨l.take i, l.drop (i + 1), ?_, by simp; omega⟩
  rw [cons_getElem_drop_succ, take_append_drop]

theorem mem_spanAddrs :
    addr ∈ σ.spanAddrs ↔ ∃ s ∈ σ.pools, addr ∈ s.spanAddrs := mem_flatMap

theorem SystemInv.addr_live (inv : SystemInv σ) (h : addr ∈ σ.spanAddrs) :
    ∃ e ∈ σ.pagePool.allocations.entries, addr = σ.pagePool.ptrAtPage e.1 := by
  obtain ⟨s, hs, haddr⟩ := mem_spanAddrs.mp h
  exact (inv.holds s hs).addr_live haddr

/-- A call that keeps the page pool and the spans of the pool that made it. -/
theorem SystemInv.replace (inv : SystemInv ⟨p, front ++ s :: back, held⟩)
    (holds : JobSizePool.Holds p t) (same : t.spanAddrs = s.spanAddrs) :
    SystemInv ⟨p, front ++ t :: back, held⟩ := by
  have spans : PoolSystem.spanAddrs ⟨p, front ++ t :: back, held⟩ =
      PoolSystem.spanAddrs ⟨p, front ++ s :: back, held⟩ := by
    simp [PoolSystem.spanAddrs, same]
  refine ⟨inv.ready, ?_, spans ▸ inv.distinct, inv.held_live, spans ▸ inv.held_apart⟩
  intro u hu
  rcases mem_append.mp hu with hu | hu
  · exact inv.holds u (by simp [hu])
  · rcases mem_cons.mp hu with rfl | hu
    · exact holds
    · exact inv.holds u (by simp [hu])

/-- A call by which the pool obtains one more span. -/
theorem SystemInv.extend {q : JobPagePool} {count : Nat}
    (inv : SystemInv ⟨p, front ++ s :: back, held⟩) (holds : JobSizePool.Holds q t)
    (grant : JobPagePool.Grants p count addr q) (more : t.spanAddrs = s.spanAddrs ++ [addr]) :
    SystemInv ⟨q, front ++ t :: back, held⟩ := by
  have perm : (PoolSystem.spanAddrs ⟨q, front ++ t :: back, held⟩).Perm
      (addr :: PoolSystem.spanAddrs ⟨p, front ++ s :: back, held⟩) := by
    simp only [PoolSystem.spanAddrs, flatMap_append, flatMap_cons, more]
    have h : (front.flatMap JobSizePool.spanAddrs ++ s.spanAddrs ++
        addr :: back.flatMap JobSizePool.spanAddrs).Perm
        (addr :: (front.flatMap JobSizePool.spanAddrs ++ s.spanAddrs ++
          back.flatMap JobSizePool.spanAddrs)) := perm_middle
    simpa using h
  obtain ⟨e, _, _, hentries, _⟩ := grant.block
  refine ⟨grant.ready, ?_, perm.nodup_iff.mpr (nodup_cons.mpr ⟨?_, inv.distinct⟩), ?_, ?_⟩
  · intro u hu
    rcases mem_append.mp hu with hu | hu
    · exact (inv.holds u (by simp [hu])).grants grant
    · rcases mem_cons.mp hu with rfl | hu
      · exact holds
      · exact (inv.holds u (by simp [hu])).grants grant
  · intro hmem
    obtain ⟨f, hf, heq⟩ := inv.addr_live hmem
    exact grant.fresh f hf heq.symm
  · intro ptr hptr
    obtain ⟨f, hf, heq⟩ := inv.held_live ptr hptr
    refine ⟨f, ?_, ?_⟩
    · rw [hentries]
      exact mem_cons_of_mem e hf
    · rw [grant.frame.ptrAtPage]
      exact heq
  · intro ptr hptr hmem
    rcases mem_cons.mp (perm.mem_iff.mp hmem) with rfl | hmem
    · obtain ⟨f, hf, heq⟩ := inv.held_live ptr hptr
      exact grant.fresh f hf heq.symm
    · exact inv.held_apart ptr hptr hmem

/-- A pool gives all its spans back. -/
theorem SystemInv.release (inv : SystemInv ⟨p, front ++ s :: back, held⟩) :
    SystemInv ⟨(s.clear p).2, front ++ (s.clear p).1 :: back, held⟩ := by
  have hclear : (s.clear p).2 = freeSpans s.pageAllocations p := by
    cases attached : s.attached with
    | true => simp [clear, attached]
    | false =>
      have hnone := (inv.holds s (by simp)).detached attached
      simp [clear, hnone, freeSpans]
  obtain ⟨ready, frame, kept⟩ := freeSpans_spec s.pageAllocations p inv.ready
  rw [← hclear] at ready frame kept
  have perm : (PoolSystem.spanAddrs ⟨p, front ++ s :: back, held⟩).Perm
      (s.spanAddrs ++ (front.flatMap JobSizePool.spanAddrs ++
        back.flatMap JobSizePool.spanAddrs)) := by
    simp only [PoolSystem.spanAddrs, flatMap_append, flatMap_cons]
    rw [← append_assoc, ← append_assoc]
    exact List.Perm.append_right _ perm_append_comm
  have rest : PoolSystem.spanAddrs ⟨(s.clear p).2, front ++ (s.clear p).1 :: back, held⟩ =
      front.flatMap JobSizePool.spanAddrs ++ back.flatMap JobSizePool.spanAddrs := by
    simp [PoolSystem.spanAddrs, JobSizePool.spanAddrs, JobSizePool.clear]
  have split := nodup_append.mp (perm.nodup_iff.mp inv.distinct)
  have other : ∀ u, u ∈ front ∨ u ∈ back → JobSizePool.Holds (s.clear p).2 u := by
    intro u hu
    have hmem : u ∈ front ++ s :: back := by
      rcases hu with hu | hu <;> simp [hu]
    refine (inv.holds u hmem).transport frame (fun e he haddr => kept e he ?_)
    intro hown
    refine split.2.2 _ hown _ ?_ rfl
    rcases hu with hu | hu
    · exact mem_append_left _ (mem_flatMap_of_mem hu haddr)
    · exact mem_append_right _ (mem_flatMap_of_mem hu haddr)
  refine ⟨ready, ?_, rest ▸ split.2.1, ?_, ?_⟩
  · intro u hu
    rcases mem_append.mp hu with hu | hu
    · exact other u (Or.inl hu)
    · rcases mem_cons.mp hu with rfl | hu
      · exact (inv.holds s (by simp)).cleared frame
      · exact other u (Or.inr hu)
  · intro ptr hptr
    obtain ⟨e, he, heq⟩ := inv.held_live ptr hptr
    refine ⟨e, kept e he (fun hown => ?_), ?_⟩
    · refine inv.held_apart ptr hptr (perm.mem_iff.mpr (mem_append_left _ ?_))
      rw [heq]
      exact hown
    · rw [frame.ptrAtPage]
      exact heq
  · intro ptr hptr hmem
    rw [rest] at hmem
    exact inv.held_apart ptr hptr (perm.mem_iff.mpr (mem_append_right _ hmem))

theorem SystemInv.hold (inv : SystemInv σ) {answer : Nat × JobPagePool}
    (h : answer = (nullptr, σ.pagePool) ∨
      ∃ count, JobPagePool.Grants σ.pagePool count answer.1 answer.2) :
    SystemInv (σ.hold answer) := by
  rcases h with rfl | ⟨count, grant⟩
  · exact ⟨inv.ready, inv.holds, inv.distinct, by simpa [PoolSystem.hold] using inv.held_live,
      by simpa [PoolSystem.hold] using inv.held_apart⟩
  obtain ⟨e, _, _, hentries, hptr⟩ := grant.block
  have own : e ∈ answer.2.allocations.entries := by
    rw [hentries]
    exact mem_cons_self
  have hne : (answer.1 == nullptr) = false := by
    have := (grant.ready.block own).ptr_pos
    rw [beq_eq_false_iff_ne, hptr]
    exact Nat.ne_of_gt this
  have hheld : (σ.hold answer).held = answer.1 :: σ.held := by simp [PoolSystem.hold, hne]
  refine ⟨grant.ready, fun s hs => (inv.holds s hs).grants grant, inv.distinct, ?_, ?_⟩
  · intro ptr hmem
    rw [hheld] at hmem
    rcases mem_cons.mp hmem with rfl | hmem
    · exact ⟨e, own, hptr⟩
    · obtain ⟨f, hf, heq⟩ := inv.held_live ptr hmem
      refine ⟨f, ?_, heq.trans (grant.frame.ptrAtPage _).symm⟩
      change f ∈ answer.2.allocations.entries
      rw [hentries]
      exact mem_cons_of_mem e hf
  · intro ptr hmem hspan
    rw [hheld] at hmem
    rcases mem_cons.mp hmem with rfl | hmem
    · obtain ⟨f, hf, heq⟩ := inv.addr_live hspan
      exact grant.fresh f hf heq.symm
    · exact inv.held_apart ptr hmem hspan

theorem SystemInv.free (inv : SystemInv σ) {ptr : Nat} (foreign : ptr ∉ σ.spanAddrs) :
    SystemInv (σ.step (.free ptr)) := by
  obtain ⟨ready, frame, failed, kept⟩ := inv.ready.free ptr
  refine ⟨ready, ?_, inv.distinct, ?_, ?_⟩
  · intro s hs
    refine (inv.holds s hs).transport frame (fun e he haddr => kept e he ?_)
    rintro rfl
    exact foreign (mem_spanAddrs.mpr ⟨s, hs, haddr⟩)
  · intro other hmem
    simp only [PoolSystem.step] at hmem
    split at hmem
    · obtain ⟨hmem, hne⟩ := mem_filter.mp hmem
      obtain ⟨e, he, heq⟩ := inv.held_live other hmem
      refine ⟨e, kept e he ?_, heq.trans (frame.ptrAtPage _).symm⟩
      rw [← heq]
      simpa using hne
    · rename_i hfail
      obtain ⟨e, he, heq⟩ := inv.held_live other hmem
      have same := failed (by simpa using hfail)
      exact ⟨e, by simpa [PoolSystem.step, same] using he, by simpa [PoolSystem.step, same] using heq⟩
  · intro other hmem
    simp only [PoolSystem.step] at hmem
    split at hmem
    · exact inv.held_apart other (mem_filter.mp hmem).1
    · exact inv.held_apart other hmem

/-- A call of a size pool touches that pool and the page pool only. -/
theorem onPool_cases (σ : PoolSystem) (i : Nat)
    (call : JobSizePool → JobPagePool → JobSizePool × JobPagePool) :
    σ.onPool i call = σ ∨ ∃ front s back, σ = ⟨σ.pagePool, front ++ s :: back, σ.held⟩ ∧
      i = front.length ∧ σ.onPool i call =
        ⟨(call s σ.pagePool).2, front ++ (call s σ.pagePool).1 :: back, σ.held⟩ := by
  simp only [onPool]
  split
  · exact Or.inl rfl
  rename_i s hs
  obtain ⟨front, back, hpools, hi⟩ := cell_of_getElem? hs
  refine Or.inr ⟨front, s, back, by rw [← hpools], hi, ?_⟩
  rw [hpools, hi, set_cell]

theorem SystemInv.poolAlloc (inv : SystemInv σ) (i : Nat) (size alignment : JobSizePool → Nat) :
    SystemInv (σ.onPool i (fun s pagePool => (s.alloc pagePool (size s) (alignment s)).2)) := by
  rcases σ.onPool_cases i (fun s pagePool => (s.alloc pagePool (size s) (alignment s)).2) with
    h | ⟨front, s, back, hσ, _, h⟩
  · rw [h]
    exact inv
  · rw [h]
    rw [hσ] at inv
    have holds := inv.holds s (by simp)
    rcases alloc_cases inv.ready holds (size s) (alignment s) with
      ⟨t, heq, ht, hspans⟩ | ⟨t, q, addr, heq, ht, grant, hspans⟩
    · simp only [heq]
      exact inv.replace ht hspans
    · simp only [heq]
      exact inv.extend ht grant hspans

theorem SystemInv.poolFree (inv : SystemInv σ) (i ptr : Nat) :
    SystemInv (σ.step (.poolFree i ptr)) := by
  rcases σ.onPool_cases i (fun s pagePool => ((s.free ptr).2, pagePool)) with
    h | ⟨front, s, back, hσ, _, h⟩
  · rw [step, h]
    exact inv
  · rw [step, h]
    rw [hσ] at inv
    exact inv.replace ((inv.holds s (by simp)).free ptr) (s.free_spanAddrs ptr)

theorem SystemInv.poolClear (inv : SystemInv σ) (i : Nat) :
    SystemInv (σ.onPool i clear) := by
  rcases σ.onPool_cases i clear with h | ⟨front, s, back, hσ, _, h⟩
  · rw [h]
    exact inv
  · rw [h]
    rw [hσ] at inv
    exact inv.release

theorem SystemInv.erase (inv : SystemInv σ) (i : Nat) :
    SystemInv { σ with pools := σ.pools.eraseIdx i } := by
  have sub : List.Sublist (σ.pools.eraseIdx i) σ.pools := eraseIdx_sublist _ _
  have spans : List.Sublist (PoolSystem.spanAddrs { σ with pools := σ.pools.eraseIdx i })
      σ.spanAddrs := sub.flatMap _
  exact ⟨inv.ready, fun s hs => inv.holds s (sub.mem hs), inv.distinct.sublist spans,
    inv.held_live, fun ptr hptr hmem => inv.held_apart ptr hptr (spans.mem hmem)⟩

theorem SystemInv.create (inv : SystemInv σ) (c : JobMemSize) : SystemInv (σ.step (.create c)) := by
  have spans : (σ.step (.create c)).spanAddrs = σ.spanAddrs := by
    simp [PoolSystem.spanAddrs, step, JobSizePool.spanAddrs, JobSizePool.init]
  refine ⟨inv.ready, ?_, spans ▸ inv.distinct, inv.held_live, spans ▸ inv.held_apart⟩
  intro s hs
  rcases mem_append.mp hs with hs | hs
  · exact inv.holds s hs
  · rw [mem_singleton.mp hs]
    exact JobSizePool.Holds.init c

theorem SystemInv.step (inv : SystemInv σ) (op : SystemOp) (permitted : σ.Permitted op) :
    SystemInv (σ.step op) := by
  cases op with
  | create c => exact inv.create c
  | poolAlloc i size alignment => exact inv.poolAlloc i (fun _ => size) (fun _ => alignment)
  | poolAllocObject i =>
    exact inv.poolAlloc i (fun s => s.sizeClass.objectSize) (fun s => s.sizeClass.alignment)
  | poolFree i ptr => exact inv.poolFree i ptr
  | poolClear i => exact inv.poolClear i
  | destroy i => exact (inv.poolClear i).erase i
  | alloc size alignment => exact inv.hold (inv.ready.alloc size alignment)
  | allocPages count =>
    refine inv.hold ?_
    rcases inv.ready.allocPages count with h | h
    · exact Or.inl h
    · exact Or.inr ⟨count, h⟩
  | free ptr => exact inv.free permitted

theorem SystemInv.init (extent : Option JobMemExtent) (pageSize : Nat)
    (representable : ∀ e ∈ extent, e.addr + e.size ≤ sizeMax) :
    SystemInv (PoolSystem.init extent pageSize) :=
  ⟨JobPagePool.ready_init extent pageSize representable, by simp [PoolSystem.init],
    nodup_nil, by simp [PoolSystem.init], by simp [PoolSystem.init]⟩

theorem SystemInv.reachable {start : PoolSystem} (inv : SystemInv start)
    (reach : Reachable start σ) : SystemInv σ := by
  induction reach with
  | start => exact inv
  | step op _ permitted ih => exact ih.step op permitted

/-- `[a, a + n)` and `[b, b + m)` share no byte. -/
def Apart (a n b m : Nat) : Prop := a + n ≤ b ∨ b + m ≤ a

/-- The object is the `i`-th of the span, which is the live block `e`. -/
structure ObjectIn (p : JobPagePool) (s : JobSizePool) (x : Nat) (a : SpanAllocation) (e : PageBlock)
    (i : Nat) : Prop where
  span : a ∈ s.pageAllocations
  block : e ∈ p.allocations.entries
  addr_eq : a.addr = p.ptrAtPage e.1
  size_eq : e.2.pageCount * p.pageSize = s.sizeClass.spanSize
  index_lt : i < s.sizeClass.objectsPerSpan
  place : x = a.addr + i * s.sizeClass.objectSize

theorem attached_of_span (holds : JobSizePool.Holds p s) (ha : a ∈ s.pageAllocations) :
    s.attached = true := by
  by_contra h
  rw [holds.detached (by simpa using h)] at ha
  cases ha

theorem objectIn_of_span (holds : JobSizePool.Holds p s) (ha : a ∈ s.pageAllocations)
    (hx : x ∈ objectsAt a.addr s.sizeClass.objectSize a.objectCount) :
    ∃ e i, ObjectIn p s x a e i := by
  obtain ⟨i, hi, rfl⟩ := mem_map.mp hx
  obtain ⟨e, he, haddr, hcount⟩ := (holds.spans a ha).live
  have hps := (holds.geometry (attached_of_span holds ha)).1
  refine ⟨e, i, ha, he, haddr, ?_, ?_, rfl⟩
  · rw [hcount, ← hps, Nat.mul_comm]
    rfl
  · rw [← (holds.spans a ha).objectCount_eq]
    exact mem_range.mp hi

theorem objectIn_of_mem (holds : JobSizePool.Holds p s) (hx : x ∈ s.objects) :
    ∃ a e i, ObjectIn p s x a e i := by
  obtain ⟨a, ha, hx⟩ := mem_flatMap.mp hx
  exact ⟨a, objectIn_of_span holds ha hx⟩

theorem ObjectIn.inside (h : ObjectIn p s x a e i) :
    a.addr ≤ x ∧ x + s.sizeClass.objectSize ≤ a.addr + s.sizeClass.spanSize := by
  have hlast : (i + 1) * s.sizeClass.objectSize ≤ s.sizeClass.spanSize :=
    (Nat.mul_le_mul_right _ h.index_lt).trans (Nat.div_mul_le_self _ _)
  rw [Nat.add_mul] at hlast
  have := h.place
  omega

theorem ObjectIn.aligned (ready : p.Ready) (holds : JobSizePool.Holds p s)
    (h : ObjectIn p s x a e i) : x % s.sizeClass.alignment = 0 := by
  obtain ⟨hps, halign⟩ := holds.geometry (attached_of_span holds h.span)
  have hpage : s.sizeClass.alignment ∣ p.pageSize := hps ▸ Nat.dvd_of_mod_eq_zero halign
  have haddr : p.pageSize ∣ a.addr :=
    h.addr_eq ▸ Nat.dvd_of_mod_eq_zero (ready.block h.block).aligned
  have hobject := Nat.dvd_of_mod_eq_zero s.sizeClass.compatible
  rw [h.place]
  exact Nat.mod_eq_zero_of_dvd
    (Nat.dvd_add (hpage.trans haddr) (Dvd.dvd.mul_left hobject i))

/-- An object and a live block other than its own span share no byte. -/
theorem ObjectIn.apart_block (ready : p.Ready) {f : PageBlock} (h : ObjectIn p s x a e i)
    (hf : f ∈ p.allocations.entries) (hne : e.1 ≠ f.1) :
    Apart x s.sizeClass.objectSize (p.ptrAtPage f.1) (f.2.pageCount * p.pageSize) := by
  have inside := h.inside
  have hsize := h.size_eq
  have haddr := h.addr_eq
  rcases ready.blocks_apart h.block hf hne with h' | h'
  · exact Or.inl (by omega)
  · exact Or.inr (by omega)

/-- Objects in spans at different addresses share no byte. -/
theorem ObjectIn.apart (ready : p.Ready) {b : SpanAllocation} {f : PageBlock}
    (h : ObjectIn p s x a e i) (k : ObjectIn p t y b f j) (hne : a.addr ≠ b.addr) :
    Apart x s.sizeClass.objectSize y t.sizeClass.objectSize := by
  have hkey : e.1 ≠ f.1 := by
    intro key
    rw [h.addr_eq, k.addr_eq, key] at hne
    exact hne rfl
  have inside := k.inside
  have hsize := k.size_eq
  have haddr := k.addr_eq
  rcases h.apart_block ready k.block hkey with h' | h'
  · exact Or.inl (by omega)
  · exact Or.inr (by omega)

/-- Two places of one row of objects share no byte. -/
theorem apart_of_index {base size : Nat} (hne : i ≠ j) :
    Apart (base + i * size) size (base + j * size) size := by
  rcases Nat.lt_or_gt_of_ne hne with h | h
  · have := Nat.mul_le_mul_right size h
    rw [Nat.succ_mul] at this
    exact Or.inl (by omega)
  · have := Nat.mul_le_mul_right size h
    rw [Nat.succ_mul] at this
    exact Or.inr (by omega)

/-- Different objects of one pool share no byte. -/
theorem objects_apart (ready : p.Ready) (holds : JobSizePool.Holds p s) (hx : x ∈ s.objects)
    (hy : y ∈ s.objects) (hne : x ≠ y) :
    Apart x s.sizeClass.objectSize y s.sizeClass.objectSize := by
  obtain ⟨a, e, i, h⟩ := objectIn_of_mem holds hx
  obtain ⟨b, f, j, k⟩ := objectIn_of_mem holds hy
  by_cases same : a.addr = b.addr
  · rw [h.place, k.place, same]
    refine apart_of_index (fun hij => hne ?_)
    rw [h.place, k.place, same, hij]
  · exact h.apart ready k same

theorem objectsAt_nodup (addr : Nat) {size : Nat} (hs : 0 < size) (count : Nat) :
    (objectsAt addr size count).Nodup := by
  refine List.Nodup.map ?_ nodup_range
  intro i j h
  exact Nat.eq_of_mul_eq_mul_right hs (Nat.add_left_cancel h)

theorem objects_nodup (ready : p.Ready) (holds : JobSizePool.Holds p s)
    (distinct : s.spanAddrs.Nodup) : s.objects.Nodup := by
  refine nodup_flatMap.mpr ⟨fun a _ => objectsAt_nodup _ s.sizeClass.objectSize_pos _, ?_⟩
  have pairs : s.pageAllocations.Pairwise (fun a b => a.addr ≠ b.addr) :=
    pairwise_map.mp distinct
  refine pairs.imp_of_mem (fun {a b} ha hb hne => ?_)
  intro x hxa hxb
  obtain ⟨e, i, h⟩ := objectIn_of_span holds ha hxa
  obtain ⟨f, j, k⟩ := objectIn_of_span holds hb hxb
  have hpos := s.sizeClass.objectSize_pos
  rcases h.apart ready k hne with h' | h' <;> omega

theorem SystemInv.pool_distinct (inv : SystemInv σ) (hs : s ∈ σ.pools) : s.spanAddrs.Nodup :=
  (nodup_flatMap.mp inv.distinct).1 s hs

/-- Spans of two pools of the system are at different addresses. -/
theorem SystemInv.pools_distinct (inv : SystemInv σ) (hs : σ.pools[i]? = some s)
    (ht : σ.pools[j]? = some t) (hne : i ≠ j) (ha : addr ∈ s.spanAddrs) : addr ∉ t.spanAddrs := by
  have pairs := (nodup_flatMap.mp inv.distinct).2
  obtain ⟨hi, rfl⟩ := List.getElem?_eq_some_iff.mp hs
  obtain ⟨hj, rfl⟩ := List.getElem?_eq_some_iff.mp ht
  rcases Nat.lt_or_gt_of_ne hne with h | h
  · exact fun hb => pairwise_iff_getElem.mp pairs i j hi hj h ha hb
  · exact fun hb => pairwise_iff_getElem.mp pairs j i hj hi h hb ha

theorem SystemInv.live_apart (inv : SystemInv σ) (hs : σ.pools[i]? = some s)
    (ht : σ.pools[j]? = some t) (hx : x ∈ s.objects) (hy : y ∈ t.objects) (hne : i ≠ j ∨ x ≠ y) :
    Apart x s.sizeClass.objectSize y t.sizeClass.objectSize := by
  have holdsS := inv.holds s (mem_of_getElem? hs)
  have holdsT := inv.holds t (mem_of_getElem? ht)
  by_cases same : i = j
  · subst same
    obtain rfl : s = t := Option.some.inj (hs.symm.trans ht)
    exact objects_apart inv.ready holdsS hx hy (hne.resolve_left (fun h => h rfl))
  · obtain ⟨a, e, k, h⟩ := objectIn_of_mem holdsS hx
    obtain ⟨b, f, l, h'⟩ := objectIn_of_mem holdsT hy
    refine h.apart inv.ready h' (fun heq => ?_)
    have ha : a.addr ∈ s.spanAddrs := mem_map_of_mem h.span
    have hb : b.addr ∈ t.spanAddrs := mem_map_of_mem h'.span
    rw [← heq] at hb
    exact inv.pools_distinct hs ht same ha hb

/-- In every reachable state of the system: no two live page blocks and no two live objects share
a byte; a live object lies in one span of its own pool, aligned as its size class asks, and shares
no byte with any other live block, in particular with those the other users hold; and inside each
size pool the free list has no duplicate, no live object, and the right length. -/
theorem pools_never_overlap (extent : Option JobMemExtent) (pageSize : Nat)
    (representable : ∀ e ∈ extent, e.addr + e.size ≤ sizeMax) {σ : PoolSystem}
    (reach : Reachable (PoolSystem.init extent pageSize) σ) :
    (∀ e ∈ σ.pagePool.allocations.entries, ∀ f ∈ σ.pagePool.allocations.entries, e.1 ≠ f.1 →
      Apart (σ.pagePool.ptrAtPage e.1) (e.2.pageCount * σ.pagePool.pageSize)
        (σ.pagePool.ptrAtPage f.1) (f.2.pageCount * σ.pagePool.pageSize)) ∧
    (∀ (i j : Nat) (s t : JobSizePool), σ.pools[i]? = some s → σ.pools[j]? = some t →
      ∀ x ∈ s.liveObjects, ∀ y ∈ t.liveObjects, i ≠ j ∨ x ≠ y →
      Apart x s.sizeClass.objectSize y t.sizeClass.objectSize) ∧
    (∀ s ∈ σ.pools, ∀ x ∈ s.liveObjects, x % s.sizeClass.alignment = 0 ∧
      ∃ a ∈ s.pageAllocations, ∃ e ∈ σ.pagePool.allocations.entries,
        a.addr = σ.pagePool.ptrAtPage e.1 ∧
        e.2.pageCount * σ.pagePool.pageSize = s.sizeClass.spanSize ∧
        a.addr ≤ x ∧ x + s.sizeClass.objectSize ≤ a.addr + s.sizeClass.spanSize ∧
        ∀ f ∈ σ.pagePool.allocations.entries, e.1 ≠ f.1 →
          Apart x s.sizeClass.objectSize (σ.pagePool.ptrAtPage f.1)
            (f.2.pageCount * σ.pagePool.pageSize)) ∧
    (∀ ptr ∈ σ.held, σ.Permitted (.free ptr) ∧ ∃ f ∈ σ.pagePool.allocations.entries,
      ptr = σ.pagePool.ptrAtPage f.1 ∧ ∀ s ∈ σ.pools, ∀ x ∈ s.liveObjects,
        Apart x s.sizeClass.objectSize ptr (f.2.pageCount * σ.pagePool.pageSize)) ∧
    ∀ s ∈ σ.pools, s.freeObjects.Nodup ∧ (∀ x ∈ s.freeObjects, x ∉ s.liveObjects) ∧
      s.allocatedObjects = s.liveObjects.length ∧
      s.liveObjects.length + s.freeObjects.length = s.objectCapacity := by
  have inv := (SystemInv.init extent pageSize representable).reachable reach
  have live : ∀ s ∈ σ.pools, ∀ x ∈ s.liveObjects, x ∈ s.objects := fun s hs x hx =>
    (inv.holds s hs).objects_perm.mem_iff.mp (mem_append_right _ hx)
  refine ⟨fun e he f hf hne => inv.ready.blocks_apart he hf hne, ?_, ?_, ?_, ?_⟩
  · intro i j s t hs ht x hx y hy hne
    exact inv.live_apart hs ht (live s (mem_of_getElem? hs) x hx)
      (live t (mem_of_getElem? ht) y hy) hne
  · intro s hs x hx
    obtain ⟨a, e, i, h⟩ := objectIn_of_mem (inv.holds s hs) (live s hs x hx)
    refine ⟨h.aligned inv.ready (inv.holds s hs), a, h.span, e, h.block, h.addr_eq, h.size_eq,
      h.inside.1, h.inside.2, ?_⟩
    exact fun f hf hne => h.apart_block inv.ready hf hne
  · intro ptr hptr
    have foreign := inv.held_apart ptr hptr
    obtain ⟨f, hf, heq⟩ := inv.held_live ptr hptr
    refine ⟨foreign, f, hf, heq, ?_⟩
    intro s hs x hx
    obtain ⟨a, e, i, h⟩ := objectIn_of_mem (inv.holds s hs) (live s hs x hx)
    have hne : e.1 ≠ f.1 := by
      intro key
      refine foreign (mem_spanAddrs.mpr ⟨s, hs, ?_⟩)
      rw [heq, ← key, ← h.addr_eq]
      exact mem_map_of_mem h.span
    rw [heq]
    exact h.apart_block inv.ready hf hne
  · intro s hs
    have holds := inv.holds s hs
    have nodup := holds.objects_perm.nodup_iff.mpr
      (objects_nodup inv.ready holds (inv.pool_distinct hs))
    have hlen := holds.objects_perm.length_eq
    rw [length_append, ← holds.capacity] at hlen
    have split := nodup_append.mp nodup
    exact ⟨split.1, fun x hx hlive => split.2.2 x hx x hlive rfl, holds.count, by omega⟩

/-- Objects of 1024 bytes in spans of one page. -/
def sampleSize : JobMemSize where
  id := 0
  objectSize := 1024
  alignment := 64
  pageSize := 4096
  pagesPerSpan := 1
  objectSize_pos := by decide
  alignment_valid := by decide
  compatible := by decide
  pageSize_pos := by decide
  pagesPerSpan_pos := by decide
  no_overflow := by decide
  fits := by decide

/-- Two size pools and another user: the page that the first pool gives back goes to the second. -/
def sampleRun : List SystemOp :=
  [.create sampleSize, .create sampleSize, .poolAllocObject 0, .allocPages 1, .poolClear 0,
    .poolAllocObject 1, .poolAlloc 1 100 16, .free 77824]

theorem pools_never_overlap_sample :
    let σ := sampleRun.foldl step (PoolSystem.init (some JobPagePool.samplePages) 4096)
    σ.pools.map liveObjects = [[], [75776, 76800]] ∧
      ∀ s ∈ σ.pools, s.freeObjects.Nodup ∧ (∀ x ∈ s.freeObjects, x ∉ s.liveObjects) ∧
        s.allocatedObjects = s.liveObjects.length ∧
        s.liveObjects.length + s.freeObjects.length = s.objectCapacity := by
  have reach : Reachable (PoolSystem.init (some JobPagePool.samplePages) 4096)
      (sampleRun.foldl step (PoolSystem.init (some JobPagePool.samplePages) 4096)) := by
    refine Reachable.step (.free 77824) ?_ ((by decide : 77824 ∉ PoolSystem.spanAddrs _))
    repeat refine Reachable.step _ ?_ trivial
    exact Reachable.start
  refine ⟨by decide, (pools_never_overlap (some JobPagePool.samplePages) 4096 ?_ reach).2.2.2.2⟩
  intro e he
  obtain rfl := Option.mem_some.mp he
  decide

end PoolSystem

end JobIo
