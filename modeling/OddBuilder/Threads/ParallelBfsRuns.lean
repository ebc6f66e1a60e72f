import Mathlib.Data.Multiset.Bind
import Mathlib.Data.Prod.Lex
import OddBuilder.Threads.ParallelBfs

/-!
# Runs of parallel_bfs

Whoever wins a claim, at the end of a pass the vertices claimed in it are those of
the next level, each of them once in a buffer of a shard.
-/

namespace JobThreads

open Interleaving Levels Multiset BfsTask

variable {call : BfsCall} {level : BfsLevel} {s s' : BfsState} {t : BfsTask}
  {born others threads : Multiset BfsTask}
variable {u v i : Nat} {job : BfsJob} {neighbors : List Nat}

theorem getD_set_eq {α : Type} {l : List α} (h : i < l.length) (a d : α) (j : Nat) :
    (l.set i a).getD j d = if j = i then a else l.getD j d := by
  rw [List.getD_eq_getElem?_getD, List.getElem?_set]
  by_cases hji : j = i
  · simp [hji, h]
  · rw [if_neg (Ne.symm hji), if_neg hji, List.getD_eq_getElem?_getD]

namespace BfsTask

/-- The vertices that were claimed and are in no buffer yet. -/
def holds : BfsTask → List Nat
  | .worker _ => []
  | .claiming job _ => job.localBatch
  | .recording job u _ => job.localBatch ++ [u]
  | .flushing job _ => job.localBatch

/-- The indexes to come. -/
def rest : BfsTask → List Nat
  | .worker indexes => indexes
  | .claiming job _ => job.rest
  | .recording job _ _ => job.rest
  | .flushing job _ => job.rest

/-- The vertex in work and its neighbors to come. -/
def scanning : BfsTask → Option (Nat × List Nat)
  | .worker _ => none
  | .claiming job neighbors => some (job.v, neighbors)
  | .recording job _ neighbors => some (job.v, neighbors)
  | .flushing job neighbors => some (job.v, neighbors)

/-- The calls of the visitor to come. -/
def toVisit (level : BfsLevel) (t : BfsTask) : List (Nat × Nat) :=
  t.rest.map fun idx => (level.depth, level.frontier.getD idx 0)

/-- The edge is still to be looked at. -/
def Covers (level : BfsLevel) (u v : Nat) (t : BfsTask) : Prop :=
  (∃ idx ∈ t.rest, level.frontier.getD idx 0 = u) ∨
    ∃ neighbors, t.scanning = some (u, neighbors) ∧ v ∈ neighbors

end BfsTask

@[simp] theorem push_holds (job : BfsJob) (u : Nat) (neighbors : List Nat) :
    (job.push u neighbors).holds = job.localBatch ++ [u] := by
  unfold BfsJob.push
  dsimp only
  split
  · rfl
  · rfl

@[simp] theorem push_rest (job : BfsJob) (u : Nat) (neighbors : List Nat) :
    (job.push u neighbors).rest = job.rest := by
  unfold BfsJob.push
  dsimp only
  split
  · rfl
  · rfl

@[simp] theorem push_scanning (job : BfsJob) (u : Nat) (neighbors : List Nat) :
    (job.push u neighbors).scanning = some (job.v, neighbors) := by
  unfold BfsJob.push
  dsimp only
  split
  · rfl
  · rfl

/-- What a task knows of its vertex. -/
structure BfsJob.Knows (call : BfsCall) (level : BfsLevel) (job : BfsJob) (neighbors : List Nat) :
    Prop where
  rest : ∀ idx ∈ job.rest, idx < level.frontier.length
  shard : job.shard < call.numShards
  vertex : job.v ∈ level.frontier
  neighbors : ∀ u ∈ neighbors, u ∈ call.neighbors job.v

def BfsTask.Knows (call : BfsCall) (level : BfsLevel) : BfsTask → Prop
  | .worker indexes => ∀ idx ∈ indexes, idx < level.frontier.length
  | .claiming job neighbors => job.Knows call level neighbors
  | .recording job u neighbors => job.Knows call level neighbors ∧ call.Edge job.v u
  | .flushing job neighbors => job.Knows call level neighbors

theorem BfsJob.Knows.tail (h : job.Knows call level (u :: neighbors)) :
    job.Knows call level neighbors :=
  { h with neighbors := fun x hx => h.neighbors x (List.mem_cons_of_mem _ hx) }

theorem BfsJob.Knows.push (h : job.Knows call level neighbors) (u : Nat) :
    (job.push u neighbors).Knows call level := by
  have hbatch : ({ job with localBatch := job.localBatch ++ [u] } : BfsJob).Knows call level
      neighbors := ⟨h.rest, h.shard, h.vertex, h.neighbors⟩
  unfold BfsJob.push
  dsimp only
  split
  · exact hbatch
  · exact hbatch

theorem getD_mem {l : List Nat} (h : i < l.length) : l.getD i 0 ∈ l := by
  rw [List.getD_eq_getElem?_getD, List.getElem?_eq_getElem h]
  exact List.getElem_mem h

theorem BfsTaskStep.knows (h : BfsTaskStep call level s t s' born) (hknows : t.Knows call level) :
    ∀ u ∈ born, u.Knows call level := by
  have hone : ∀ u : BfsTask, u.Knows call level → ∀ u' ∈ ({u} : Multiset BfsTask),
      u'.Knows call level := by
    intro u hu u' hu'
    rw [mem_singleton.1 hu']
    exact hu
  cases h with
  | visit _ idx rest =>
    apply hone
    constructor
    · exact fun i hi => hknows i (List.mem_cons_of_mem _ hi)
    · exact Nat.mod_lt _ (Nat.lt_of_lt_of_le Nat.one_pos (Nat.le_max_left _ _))
    · exact getD_mem (hknows idx List.mem_cons_self)
    · exact fun _ h => h
  | outside | taken => exact hone _ (BfsJob.Knows.tail hknows)
  | claim _ job u neighbors hu =>
    exact hone _ ⟨BfsJob.Knows.tail hknows, hknows.neighbors u List.mem_cons_self, hu⟩
  | record _ job u neighbors => exact hone _ (hknows.1.push u)
  | flush _ job neighbors =>
    exact hone _ ⟨hknows.rest, hknows.shard, hknows.vertex, hknows.neighbors⟩
  | flushRest => exact hone _ hknows
  | next _ job => exact hone _ hknows.rest
  | done => exact fun u hu => absurd hu (notMem_zero u)

/-- Only for a vertex claimed are there new entries. -/
theorem BfsTaskStep.ret_cases (h : BfsTaskStep call level s t s' born) :
    (s'.ret = s.ret ∧ ∀ job u neighbors, t ≠ .recording job u neighbors) ∨
      ∃ job u neighbors, t = .recording job u neighbors ∧
        s' = { s with
          ret := ⟨s.ret.depth.set u ((level.depth + 1) % 2 ^ 64), s.ret.parent.set u job.v⟩ } ∧
        born = {job.push u neighbors} := by
  cases h with
  | record _ job u neighbors => exact Or.inr ⟨job, u, neighbors, rfl, rfl, rfl⟩
  | _ => exact Or.inl ⟨rfl, by simp⟩

/-- What a buffer gets, all buffers together get. -/
theorem flatMap_update_perm (f : Nat → List Nat) {n : Nat} (h : i < n) (more : List Nat) :
    ((List.range n).flatMap (Function.update f i (f i ++ more))).Perm
      ((List.range n).flatMap f ++ more) := by
  induction n with
  | zero => cases h
  | succ n ih =>
    rw [List.range_succ, List.flatMap_append, List.flatMap_append, List.flatMap_singleton,
      List.flatMap_singleton]
    by_cases hi : i = n
    · subst hi
      have hsame : (List.range i).flatMap (Function.update f i (f i ++ more)) =
          (List.range i).flatMap f := by
        apply List.flatMap_congr
        intro j hj
        exact Function.update_of_ne (Nat.ne_of_lt (List.mem_range.1 hj)) _ _
      rw [hsame, Function.update_self, List.append_assoc]
    · rw [Function.update_of_ne (Ne.symm hi)]
      refine ((ih (by omega)).append_right _).trans ?_
      rw [List.append_assoc, List.append_assoc]
      exact List.perm_append_comm.append_left _

/-- The vertices claimed in this pass, in buffers and with the tasks. -/
def Held (call : BfsCall) (s : BfsState) (threads : Multiset BfsTask) : Multiset Nat :=
  Multiset.ofList (call.nextFrontier s) + threads.bind fun t => Multiset.ofList t.holds

theorem held_cons (call : BfsCall) (s : BfsState) (t : BfsTask) (others : Multiset BfsTask) :
    Held call s (t ::ₘ others) = Multiset.ofList t.holds + Held call s others := by
  rw [Held, Held, cons_bind, add_left_comm]

/-- Nothing that is held gets lost or comes twice, and a claim adds a vertex not visited so far. -/
theorem BfsTaskStep.held (h : BfsTaskStep call level s t s' born) (hknows : t.Knows call level)
    (others : Multiset BfsTask) :
    (s'.visited = s.visited ∧ Held call s' (born + others) = Held call s (t ::ₘ others)) ∨
      ∃ job u neighbors, t = .claiming job (u :: neighbors) ∧ u < call.adj.length ∧
        s.visited.getD u false = false ∧ s' = { s with visited := s.visited.set u true } ∧
        born = {.recording job u neighbors} ∧
        Held call s' (born + others) = u ::ₘ Held call s (t ::ₘ others) := by
  cases h with
  | claim _ job u neighbors hu hvisited =>
    refine Or.inr ⟨job, u, neighbors, rfl, hu, hvisited, rfl, rfl, ?_⟩
    rw [singleton_add, held_cons, held_cons]
    simp only [holds, ← coe_add]
    rw [add_right_comm, add_comm]
    rfl
  | flush _ job neighbors =>
    refine Or.inl ⟨rfl, ?_⟩
    rw [singleton_add, held_cons, held_cons]
    have hperm := flatMap_update_perm s.shards hknows.shard job.localBatch
    simp only [Held, holds, BfsCall.nextFrontier, coe_nil, zero_add]
    rw [coe_eq_coe.2 hperm, ← coe_add, add_right_comm, add_comm]
  | record _ job u neighbors =>
    refine Or.inl ⟨rfl, ?_⟩
    rw [singleton_add, held_cons, held_cons, push_holds]
    rfl
  | next _ job hbatch =>
    refine Or.inl ⟨rfl, ?_⟩
    rw [singleton_add, held_cons, held_cons]
    simp [holds, hbatch]
  | done =>
    refine Or.inl ⟨rfl, ?_⟩
    rw [held_cons]
    simp [holds]
  | _ =>
    refine Or.inl ⟨rfl, ?_⟩
    rw [singleton_add, held_cons, held_cons]
    rfl

/-- The calls made and those to come in this pass. -/
def Visits (level : BfsLevel) (s : BfsState) (threads : Multiset BfsTask) : Multiset (Nat × Nat) :=
  Multiset.ofList s.visits + threads.bind fun t => Multiset.ofList (t.toVisit level)

theorem visits_cons (level : BfsLevel) (s : BfsState) (t : BfsTask) (others : Multiset BfsTask) :
    Visits level s (t ::ₘ others) = Multiset.ofList (t.toVisit level) + Visits level s others := by
  rw [Visits, Visits, cons_bind, add_left_comm]

theorem BfsTaskStep.visits (h : BfsTaskStep call level s t s' born) (others : Multiset BfsTask) :
    Visits level s' (born + others) = Visits level s (t ::ₘ others) := by
  cases h with
  | visit _ idx rest =>
    rw [singleton_add, visits_cons, visits_cons]
    simp only [Visits, ← coe_add, coe_singleton]
    rw [add_comm (Multiset.ofList s.visits) {(level.depth, level.frontier.getD idx 0)}, add_assoc,
      add_left_comm, ← add_assoc]
    rfl
  | record _ job u neighbors =>
    rw [singleton_add, visits_cons, visits_cons]
    simp only [toVisit, push_rest]
    rfl
  | done =>
    rw [visits_cons]
    simp [toVisit, rest]
  | _ =>
    rw [singleton_add, visits_cons, visits_cons]
    rfl

/-- An edge that is looked at leads to a visited vertex. -/
theorem BfsTaskStep.covers (h : BfsTaskStep call level s t s' born)
    (hsize : s.visited.length = call.adj.length) (hedge : call.Edge u v)
    (hcovers : t.Covers level u v) :
    s'.visited.getD v false = true ∨ ∃ t' ∈ born, t'.Covers level u v := by
  cases h with
  | visit _ idx rest =>
    refine Or.inr ⟨_, mem_singleton_self _, ?_⟩
    rcases hcovers with ⟨i, hi, hu⟩ | ⟨neighbors, hscanning, -⟩
    · rcases List.mem_cons.1 hi with rfl | hi
      · subst hu
        exact Or.inr ⟨_, rfl, hedge.1⟩
      · exact Or.inl ⟨i, hi, hu⟩
    · cases hscanning
  | outside _ job w neighbors hw =>
    refine Or.inr ⟨_, mem_singleton_self _, ?_⟩
    rcases hcovers with hrest | ⟨_, hscanning, hv⟩
    · exact Or.inl hrest
    · cases hscanning
      rcases List.mem_cons.1 hv with rfl | hv
      · exact absurd hedge.2 (Nat.not_lt_of_le hw)
      · exact Or.inr ⟨_, rfl, hv⟩
  | taken _ job w neighbors hw hvisited =>
    rcases hcovers with hrest | ⟨_, hscanning, hv⟩
    · exact Or.inr ⟨_, mem_singleton_self _, Or.inl hrest⟩
    · cases hscanning
      rcases List.mem_cons.1 hv with rfl | hv
      · exact Or.inl hvisited
      · exact Or.inr ⟨_, mem_singleton_self _, Or.inr ⟨_, rfl, hv⟩⟩
  | claim _ job w neighbors hw =>
    rcases hcovers with hrest | ⟨_, hscanning, hv⟩
    · exact Or.inr ⟨_, mem_singleton_self _, Or.inl hrest⟩
    · cases hscanning
      rcases List.mem_cons.1 hv with rfl | hv
      · left
        rw [getD_set_eq (by omega), if_pos rfl]
      · exact Or.inr ⟨_, mem_singleton_self _, Or.inr ⟨_, rfl, hv⟩⟩
  | record _ job w neighbors =>
    refine Or.inr ⟨_, mem_singleton_self _, ?_⟩
    simp only [BfsTask.Covers, push_rest, push_scanning]
    exact hcovers
  | next _ job =>
    refine Or.inr ⟨_, mem_singleton_self _, ?_⟩
    rcases hcovers with hrest | ⟨_, hscanning, hv⟩
    · exact Or.inl hrest
    · cases hscanning
      cases hv
  | flush | flushRest => exact Or.inr ⟨_, mem_singleton_self _, hcovers⟩
  | done =>
    rcases hcovers with ⟨idx, hidx, -⟩ | ⟨_, hscanning, -⟩
    · cases hidx
    · cases hscanning

namespace BfsCall

abbrev At (call : BfsCall) : Nat → Nat → Prop := Levels.At call.Edge call.startVertex

/-- The entries of a vertex of the level. -/
def Recorded (call : BfsCall) (s : BfsState) : Nat → Nat → Prop
  | 0, v => s.ret.depth.getD v 0 = 0 ∧ s.ret.parent.getD v 0 = sizeMax
  | k + 1, v => s.ret.depth.getD v 0 = k + 1 ∧ call.At k (s.ret.parent.getD v 0) ∧
      call.Edge (s.ret.parent.getD v 0) v

end BfsCall

structure BfsState.Sized (call : BfsCall) (s : BfsState) : Prop where
  visited : s.visited.length = call.adj.length
  depth : s.ret.depth.length = call.adj.length
  parent : s.ret.parent.length = call.adj.length

/-- What holds outside of the level's own tasks: the vertices of the levels so far have their
entries, and those not visited have none. -/
structure BfsEntries (call : BfsCall) (level : BfsLevel) (s : BfsState) : Prop where
  sized : s.Sized call
  frontier : ∀ v, v ∈ level.frontier ↔ call.At level.depth v
  settled : ∀ k v, k ≤ level.depth → call.At k v →
    s.visited.getD v false = true ∧ call.Recorded s k v
  untouched : ∀ v, v < call.adj.length → s.visited.getD v false = false →
    s.ret.depth.getD v 0 = sizeMax ∧ s.ret.parent.getD v 0 = sizeMax

/-- What holds before a pass. -/
structure BfsReady (call : BfsCall) (level : BfsLevel) (s : BfsState) : Prop where
  entries : BfsEntries call level s
  nodup : level.frontier.Nodup
  reached : ∀ v, v < call.adj.length → s.visited.getD v false = true →
    ∃ k, k ≤ level.depth ∧ call.At k v
  once : s.visits.Nodup
  visits : ∀ k v, (k, v) ∈ s.visits ↔ k < level.depth ∧ call.At k v
  bounded : level.depth ≤ call.adj.length

/-- What holds in a pass: the vertices held are those visited beyond the level, and each has its
entries or a task that is about to write them. -/
structure BfsPass (call : BfsCall) (level : BfsLevel) (s : BfsState) (threads : Multiset BfsTask) :
    Prop where
  entries : BfsEntries call level s
  knows : ∀ t ∈ threads, t.Knows call level
  nodup : (Held call s threads).Nodup
  held : ∀ v, v ∈ Held call s threads ↔ v < call.adj.length ∧ s.visited.getD v false = true ∧
    ∀ k, k ≤ level.depth → ¬ call.At k v
  reached : ∀ v, v ∈ Held call s threads → ∃ u, call.At level.depth u ∧ call.Edge u v
  recorded : ∀ v, v ∈ Held call s threads → call.Recorded s (level.depth + 1) v ∨
    ∃ job neighbors, .recording job v neighbors ∈ threads
  covered : ∀ u v, call.At level.depth u → call.Edge u v →
    s.visited.getD v false = true ∨ ∃ t ∈ threads, t.Covers level u v
  once : (Visits level s threads).Nodup
  visits : ∀ k v, (k, v) ∈ Visits level s threads ↔ k ≤ level.depth ∧ call.At k v
  bounded : level.depth < call.adj.length

theorem recorded_eq_of_ret (call : BfsCall) (h : s'.ret = s.ret) : call.Recorded s' = call.Recorded s := by
  funext k v
  cases k with
  | zero => simp [BfsCall.Recorded, h]
  | succ k => simp [BfsCall.Recorded, h]

/-- New entries for one vertex leave those of the others. -/
theorem recorded_set (hsized : s.Sized call) {d p k : Nat} (hu : u < call.adj.length) (hne : v ≠ u)
    (h : call.Recorded s k v) :
    call.Recorded { s with ret := ⟨s.ret.depth.set u d, s.ret.parent.set u p⟩ } k v := by
  have hdepth := getD_set_eq (hsized.depth ▸ hu) d 0 v
  have hparent := getD_set_eq (hsized.parent ▸ hu) p 0 v
  rw [if_neg hne] at hdepth hparent
  cases k with
  | zero =>
    simp only [BfsCall.Recorded, hdepth, hparent]
    exact h
  | succ k =>
    simp only [BfsCall.Recorded, hdepth, hparent]
    exact h

theorem recorded_new (hsized : s.Sized call) {p k : Nat} (hp : call.At k p)
    (hedge : call.Edge p u) :
    call.Recorded { s with ret := ⟨s.ret.depth.set u (k + 1), s.ret.parent.set u p⟩ } (k + 1) u := by
  have hdepth := getD_set_eq (hsized.depth ▸ hedge.2) (k + 1) 0 u
  have hparent := getD_set_eq (hsized.parent ▸ hedge.2) p 0 u
  rw [if_pos rfl] at hdepth hparent
  simp only [BfsCall.Recorded, hdepth, hparent]
  exact ⟨trivial, hp, hedge⟩

theorem BfsTaskStep.sized (h : BfsTaskStep call level s t s' born) (hsized : s.Sized call) :
    s'.Sized call := by
  obtain ⟨hvisited, hdepth, hparent⟩ := hsized
  cases h with
  | claim => exact ⟨by rwa [List.length_set], hdepth, hparent⟩
  | record => exact ⟨hvisited, by rwa [List.length_set], by rwa [List.length_set]⟩
  | _ => exact ⟨hvisited, hdepth, hparent⟩

/-- A visited vertex stays visited. -/
theorem BfsTaskStep.visited_mono (h : BfsTaskStep call level s t s' born) (hsized : s.Sized call)
    (hv : s.visited.getD v false = true) : s'.visited.getD v false = true := by
  cases h with
  | claim _ job u neighbors hu =>
    rw [getD_set_eq (hsized.visited ▸ hu)]
    split
    · rfl
    · exact hv
  | _ => exact hv

/-- A vertex that is about to get its entries has none of an earlier level. -/
theorem BfsPass.recording (h : BfsPass call level s (.recording job u neighbors ::ₘ others)) :
    u < call.adj.length ∧ s.visited.getD u false = true ∧ ∀ k, k ≤ level.depth → ¬ call.At k u := by
  apply (h.held u).1
  rw [held_cons]
  exact mem_add.2 (Or.inl (by simp [holds]))

theorem BfsPass.entries_step (h : BfsPass call level s (t ::ₘ others))
    (hnext : BfsTaskStep call level s t s' born) : BfsEntries call level s' := by
  have hentries := h.entries
  have hsized := hentries.sized
  constructor
  · exact hnext.sized hsized
  · exact hentries.frontier
  · intro k v hk hat
    obtain ⟨hvisited, hrecorded⟩ := hentries.settled k v hk hat
    refine ⟨hnext.visited_mono hsized hvisited, ?_⟩
    rcases hnext.ret_cases with ⟨hret, -⟩ | ⟨job, u, neighbors, rfl, rfl, rfl⟩
    · rw [recorded_eq_of_ret call hret]
      exact hrecorded
    · obtain ⟨hu, -, hnone⟩ := h.recording
      apply recorded_set hsized hu ?_ hrecorded
      rintro rfl
      exact hnone k hk hat
  · intro v hv hunvisited
    have hbefore : s.visited.getD v false = false := by
      rw [← Bool.not_eq_true] at hunvisited ⊢
      exact fun hvisited => hunvisited (hnext.visited_mono hsized hvisited)
    have huntouched := hentries.untouched v hv hbefore
    rcases hnext.ret_cases with ⟨hret, -⟩ | ⟨job, u, neighbors, rfl, rfl, rfl⟩
    · rw [hret]
      exact huntouched
    · obtain ⟨hu, hvisited, -⟩ := h.recording
      have hne : v ≠ u := by
        rintro rfl
        rw [hvisited] at hbefore
        cases hbefore
      rw [getD_set_eq (hsized.depth ▸ hu), getD_set_eq (hsized.parent ▸ hu), if_neg hne, if_neg hne]
      exact huntouched

/-- A vertex held has its entries, or its task still has to write them. -/
theorem BfsPass.recorded_step (hsize : call.adj.length < 2 ^ 64)
    (h : BfsPass call level s (t ::ₘ others)) (hnext : BfsTaskStep call level s t s' born)
    (hv : v ∈ Held call s (t ::ₘ others)) : call.Recorded s' (level.depth + 1) v ∨
      ∃ job neighbors, .recording job v neighbors ∈ born + others := by
  have hsized := h.entries.sized
  rcases hnext.ret_cases with ⟨hret, hother⟩ | ⟨job, u, neighbors, rfl, rfl, rfl⟩
  · rw [recorded_eq_of_ret call hret]
    rcases h.recorded v hv with hrecorded | ⟨job, neighbors, hmem⟩
    · exact Or.inl hrecorded
    · rcases mem_cons.1 hmem with heq | hmem
      · exact absurd heq.symm (hother job v neighbors)
      · exact Or.inr ⟨job, neighbors, mem_add.2 (Or.inr hmem)⟩
  · obtain ⟨hjob, hedge⟩ : job.Knows call level neighbors ∧ call.Edge job.v u :=
      h.knows _ (mem_cons_self _ _)
    have hdepth : (level.depth + 1) % 2 ^ 64 = level.depth + 1 := by
      have hbounded := h.bounded
      exact Nat.mod_eq_of_lt (by omega)
    by_cases heq : v = u
    · subst heq
      left
      rw [hdepth]
      exact recorded_new hsized ((h.entries.frontier _).1 hjob.vertex) hedge
    · rcases h.recorded v hv with hrecorded | ⟨job', neighbors', hmem⟩
      · exact Or.inl (recorded_set hsized hedge.2 heq hrecorded)
      · rcases mem_cons.1 hmem with hsame | hmem
        · cases hsame
          exact absurd rfl heq
        · exact Or.inr ⟨job', neighbors', mem_add.2 (Or.inr hmem)⟩

theorem BfsPass.step (hsize : call.adj.length < 2 ^ 64)
    (h : BfsPass call level s (t ::ₘ others)) (hnext : BfsTaskStep call level s t s' born) :
    BfsPass call level s' (born + others) := by
  have hsized := h.entries.sized
  have hknows := h.knows t (mem_cons_self _ _)
  have hvisits := hnext.visits others
  have hentries := h.entries_step hnext
  have hall : ∀ t ∈ born + others, t.Knows call level := by
    intro u hu
    rcases mem_add.1 hu with hu | hu
    · exact hnext.knows hknows u hu
    · exact h.knows u (mem_cons_of_mem hu)
  have hcovered : ∀ u v, call.At level.depth u → call.Edge u v →
      s'.visited.getD v false = true ∨ ∃ t ∈ born + others, t.Covers level u v := by
    intro u v hu hedge
    rcases h.covered u v hu hedge with hvisited | ⟨t', ht', hcovers⟩
    · exact Or.inl (hnext.visited_mono hsized hvisited)
    · rcases mem_cons.1 ht' with rfl | ht'
      · rcases hnext.covers hsized.visited hedge hcovers with hvisited | ⟨t'', ht'', hcovers⟩
        · exact Or.inl hvisited
        · exact Or.inr ⟨t'', mem_add.2 (Or.inl ht''), hcovers⟩
      · exact Or.inr ⟨t', mem_add.2 (Or.inr ht'), hcovers⟩
  rcases hnext.held hknows others with ⟨hvisited, hheld⟩ |
    ⟨job, u, neighbors, rfl, hu, hfresh, rfl, rfl, hheld⟩
  · refine ⟨hentries, hall, ?_, ?_, ?_, ?_, hcovered, ?_, ?_, h.bounded⟩
    · rw [hheld]
      exact h.nodup
    · rw [hheld, hvisited]
      exact h.held
    · rw [hheld]
      exact h.reached
    · intro v hv
      rw [hheld] at hv
      exact h.recorded_step hsize hnext hv
    · rw [hvisits]
      exact h.once
    · rw [hvisits]
      exact h.visits
  · have hnone : ∀ k, k ≤ level.depth → ¬ call.At k u := by
      intro k hk hat
      rw [(h.entries.settled k u hk hat).1] at hfresh
      cases hfresh
    refine ⟨hentries, hall, ?_, ?_, ?_, ?_, hcovered, ?_, ?_, h.bounded⟩
    · rw [hheld, nodup_cons]
      refine ⟨?_, h.nodup⟩
      intro hmem
      rw [((h.held u).1 hmem).2.1] at hfresh
      cases hfresh
    · intro v
      rw [hheld, mem_cons, h.held v, getD_set_eq (hsized.visited ▸ hu)]
      by_cases heq : v = u
      · subst heq
        simpa [hu] using hnone
      · simp [heq]
    · intro v hv
      rw [hheld] at hv
      rcases mem_cons.1 hv with rfl | hv
      · exact ⟨job.v, (h.entries.frontier _).1 hknows.vertex,
          hknows.neighbors v List.mem_cons_self, hu⟩
      · exact h.reached v hv
    · intro v hv
      rw [hheld] at hv
      rcases mem_cons.1 hv with rfl | hv
      · exact Or.inr ⟨job, neighbors, mem_add.2 (Or.inl (mem_singleton_self _))⟩
      · exact h.recorded_step hsize hnext hv
    · rw [hvisits]
      exact h.once
    · rw [hvisits]
      exact h.visits

end JobThreads
