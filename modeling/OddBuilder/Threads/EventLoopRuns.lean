import Mathlib.Data.List.Nodup
import OddBuilder.Threads.EventLoop

/-!
# Runs of AsyncEventLoop

A timer that is not registered, with no copy of its callback in the queue, is not
started any more. A timer that fires once is not registered any more when its
callback is in the queue, so that the cancelling of a repeating one is left.
-/

namespace JobThreads

open List AsyncEventLoop

namespace AsyncEventLoop

open EventLoop

variable {s s' : EventLoop} {action : Action} {events : List Event} {k : Nat}
variable {actions : List Action} {id : Nat} {now : Int} {s₁ : EventLoop} {t : JobTimer}
  {item : TaskItem} {first : List Event}

/-- What a step can do. -/
theorem step_cases (h : step s action = some (s', events)) :
    (∃ callable now interval repeats, s' = s.addTimer callable now interval repeats ∧ events = []) ∨
    (∃ task priority, s' = s.post task priority ∧ (∀ timer, task ≠ some (.callback timer)) ∧
      events = []) ∨
    (∃ onLoop id, action = .cancelTimer onLoop id ∧ s' = (s.cancelTimer id).1 ∧
      events = [.cancelled onLoop id (s.cancelTimer id).2.1 (s.cancelTimer id).2.2]) ∨
    (∃ now stack, s' = { s.processTimers now with stack := stack } ∧ events = []) ∨
    (∃ i item stack, s.queue[i]? = some item ∧
      s' = (call { s with queue := s.queue.eraseIdx i, stack := stack } item.task).1 ∧
      events = (call { s with queue := s.queue.eraseIdx i, stack := stack } item.task).2) ∨
    (∃ stack, s' = { s with stack := stack } ∧ events = []) := by
  cases action with
  | addTimer onLoop callable now interval repeats =>
    obtain ⟨-, h⟩ := Option.ite_none_left_eq_some.1 h
    cases h
    exact Or.inl ⟨callable, now, interval, repeats, rfl, rfl⟩
  | post onLoop callable priority =>
    obtain ⟨-, h⟩ := Option.ite_none_left_eq_some.1 h
    cases h
    refine Or.inr (Or.inl ⟨_, priority, rfl, ?_, rfl⟩)
    intro timer heq
    split at heq
    · cases heq
    · cases heq
  | cancelTimer onLoop id =>
    obtain ⟨-, h⟩ := Option.ite_none_left_eq_some.1 h
    cases h
    exact Or.inr (Or.inr (Or.inl ⟨onLoop, id, rfl, rfl, rfl⟩))
  | runOnce =>
    obtain ⟨-, h⟩ := Option.ite_none_right_eq_some.1 h
    cases h
    exact Or.inr (Or.inr (Or.inr (Or.inr (Or.inr ⟨_, rfl, rfl⟩))))
  | processTimers now =>
    simp only [step] at h
    split at h
    · cases h
      exact Or.inr (Or.inr (Or.inr (Or.inl ⟨now, _, rfl, rfl⟩)))
    · cases h
  | take i =>
    simp only [step, Option.bind_eq_bind, Option.bind_eq_some_iff, Option.ite_none_right_eq_some] at h
    obtain ⟨stack, -, item, hitem, -, h⟩ := h
    have heq := Option.some.inj h
    exact Or.inr (Or.inr (Or.inr (Or.inr (Or.inl
      ⟨i, item, stack, hitem, (congrArg Prod.fst heq).symm, (congrArg Prod.snd heq).symm⟩))))
  | takeNone =>
    simp only [step] at h
    split at h
    · obtain ⟨-, h⟩ := Option.ite_none_right_eq_some.1 h
      cases h
      exact Or.inr (Or.inr (Or.inr (Or.inr (Or.inr ⟨_, rfl, rfl⟩))))
    · obtain ⟨-, h⟩ := Option.ite_none_right_eq_some.1 h
      cases h
      exact Or.inr (Or.inr (Or.inr (Or.inr (Or.inr ⟨_, rfl, rfl⟩))))
    · cases h
  | done =>
    simp only [step] at h
    split at h
    · obtain ⟨-, h⟩ := Option.ite_none_right_eq_some.1 h
      cases h
      exact Or.inr (Or.inr (Or.inr (Or.inr (Or.inr ⟨_, rfl, rfl⟩))))
    · cases h
  | taskReturns =>
    simp only [step] at h
    split at h
    · cases h
      exact Or.inr (Or.inr (Or.inr (Or.inr (Or.inr ⟨_, rfl, rfl⟩))))
    · cases h

theorem mem_addTimer {callable repeats : Bool} {interval : Int}
    (h : t ∈ (s.addTimer callable now interval repeats).timers) :
    t ∈ s.timers ∨ (t.timer = s.added ∧ t.isActive = true ∧
      (t.callback = none ∨ t.callback = some (.callback s.added))) := by
  rcases mem_append.1 h with hold | hnew
  · exact Or.inl hold
  · rw [mem_singleton.1 hnew]
    refine Or.inr ⟨rfl, rfl, ?_⟩
    cases callable with
    | true => exact Or.inr rfl
    | false => exact Or.inl rfl

theorem cancelTimer_timers (s : EventLoop) (id : Nat) :
    (s.cancelTimer id).1.timers = s.timers.filter fun t => t.id ≠ id := by
  simp only [cancelTimer]
  split
  · rfl
  · rfl

theorem cancelTimer_added (s : EventLoop) (id : Nat) : (s.cancelTimer id).1.added = s.added := by
  simp only [cancelTimer]
  split
  · rfl
  · rfl

theorem cancelTimer_stack (s : EventLoop) (id : Nat) : (s.cancelTimer id).1.stack = s.stack := by
  simp only [cancelTimer]
  split
  · rfl
  · rfl

/-- The call puts nothing in the queue but a task that wakes the loop. -/
theorem mem_cancelTimer_queue (h : item ∈ (s.cancelTimer id).1.queue) :
    item ∈ s.queue ∨ item.task = some .wake := by
  simp only [cancelTimer] at h
  split at h
  · rcases mem_append.1 h with hold | hnew
    · exact Or.inl hold
    · rw [mem_singleton.1 hnew]
      exact Or.inr rfl
  · exact Or.inl h

theorem queue_subset_cancelTimer (h : item ∈ s.queue) : item ∈ (s.cancelTimer id).1.queue := by
  simp only [cancelTimer]
  split
  · exact mem_append.2 (Or.inl h)
  · exact h

theorem mem_erased {timer : Nat} :
    timer ∈ (s.cancelTimer id).2.2 ↔ ∃ t ∈ s.timers, t.id = id ∧ t.timer = timer := by
  have herased : (s.cancelTimer id).2.2 = (s.timers.filter fun t => t.id = id).map (·.timer) := by
    simp only [cancelTimer]
    split
    · rfl
    · rfl
  rw [herased]
  simp [and_assoc]

theorem turn_timer (now : Int) (t : JobTimer) : (turn now t).timer = t.timer := by
  unfold turn
  split
  · split
    · rfl
    · rfl
  · rfl

theorem turn_callback (now : Int) (t : JobTimer) : (turn now t).callback = t.callback := by
  unfold turn
  split
  · split
    · rfl
    · rfl
  · rfl

theorem turn_repeats (now : Int) (t : JobTimer) : (turn now t).repeats = t.repeats := by
  unfold turn
  split
  · split
    · rfl
    · rfl
  · rfl

/-- A timer that fires once stays only if it was not expired. -/
theorem not_expired_of_turn (hactive : (turn now t).isActive = true) (honce : t.repeats = false) :
    t.expired now = false := by
  unfold turn at hactive
  split at hactive
  · rw [honce] at hactive
    cases hactive
  · rename_i hexpired
    exact Bool.not_eq_true _ ▸ hexpired

/-- The registered timers have numbers of their own and have not fired, if they fire once. -/
structure Registered (s : EventLoop) : Prop where
  numbers : (s.timers.map (·.timer)).Nodup
  older : ∀ t ∈ s.timers, t.timer < s.added
  callback : ∀ t ∈ s.timers, t.callback = none ∨ t.callback = some (.callback t.timer)
  queued : ∀ item ∈ s.queue, ∀ timer, item.task = some (.callback timer) → timer < s.added
  once : ∀ t ∈ s.timers, t.repeats = false → ∀ item ∈ s.queue, item.task ≠ some (.callback t.timer)

theorem registered_create (started : Bool) : Registered (create started) where
  numbers := nodup_nil
  older := by simp [create]
  callback := by simp [create]
  queued := by simp [create]
  once := by simp [create]

theorem Registered.eq_of_timer (h : Registered s) {t' : JobTimer} (ht : t ∈ s.timers)
    (ht' : t' ∈ s.timers) (heq : t.timer = t'.timer) : t = t' :=
  inj_on_of_nodup_map h.numbers ht ht' heq

/-- Fewer timers and a queue with no new callbacks. -/
theorem Registered.shrink (h : Registered s) (htimers : s'.timers.Sublist s.timers)
    (hqueue : ∀ item ∈ s'.queue, ∀ timer, item.task = some (.callback timer) → item ∈ s.queue)
    (hadded : s'.added = s.added) : Registered s' where
  numbers := h.numbers.sublist (htimers.map _)
  older := fun t ht => hadded ▸ h.older t (htimers.subset ht)
  callback := fun t ht => h.callback t (htimers.subset ht)
  queued := fun item hitem timer htask =>
    hadded ▸ h.queued item (hqueue item hitem timer htask) timer htask
  once := by
    intro t ht honce item hitem htask
    exact h.once t (htimers.subset ht) honce item (hqueue item hitem _ htask) htask

theorem Registered.addTimer (h : Registered s) (callable repeats : Bool) (now interval : Int) :
    Registered (s.addTimer callable now interval repeats) := by
  have hqueue : ∀ item ∈ (s.addTimer callable now interval repeats).queue, ∀ timer,
      item.task = some (.callback timer) → item ∈ s.queue := by
    intro item hitem timer htask
    rcases mem_append.1 hitem with hold | hnew
    · exact hold
    · rw [mem_singleton.1 hnew] at htask
      cases htask
  constructor
  · rw [show (s.addTimer callable now interval repeats).timers = s.timers ++ _ from rfl,
      map_append, nodup_append]
    refine ⟨h.numbers, nodup_singleton _, ?_⟩
    rintro _ hold _ hnew rfl
    obtain ⟨t, ht, heq⟩ := mem_map.1 hold
    have hlt := h.older t ht
    rw [heq, mem_singleton.1 hnew] at hlt
    exact Nat.lt_irrefl _ hlt
  · intro t ht
    rcases mem_addTimer ht with hold | ⟨heq, -⟩
    · exact Nat.lt_succ_of_lt (h.older t hold)
    · rw [heq]
      exact Nat.lt_succ_self _
  · intro t ht
    rcases mem_addTimer ht with hold | ⟨heq, -, hcallback⟩
    · exact h.callback t hold
    · rw [heq]
      exact hcallback
  · intro item hitem timer htask
    exact Nat.lt_succ_of_lt (h.queued item (hqueue item hitem timer htask) timer htask)
  · intro t ht honce item hitem htask
    have hold := hqueue item hitem _ htask
    rcases mem_addTimer ht with ht | ⟨heq, -⟩
    · exact h.once t ht honce item hold htask
    · have hlt := h.queued item hold _ htask
      rw [heq] at hlt
      exact Nat.lt_irrefl _ hlt

theorem mem_processTimers_queue (h : item ∈ (s.processTimers now).queue) :
    item ∈ s.queue ∨ ∃ t ∈ s.timers, t.expired now = true ∧ item.task = t.callback := by
  rcases mem_append.1 h with hold | hnew
  · exact Or.inl hold
  · obtain ⟨t, ht, rfl⟩ := mem_map.1 hnew
    obtain ⟨ht, hexpired⟩ := mem_filter.1 ht
    exact Or.inr ⟨t, ht, hexpired, rfl⟩

theorem mem_processTimers_timers {t' : JobTimer} (h : t' ∈ (s.processTimers now).timers) :
    ∃ t ∈ s.timers, turn now t = t' ∧ t'.isActive = true := by
  obtain ⟨hmem, hactive⟩ := mem_filter.1 h
  obtain ⟨t, ht, heq⟩ := mem_map.1 hmem
  exact ⟨t, ht, heq, hactive⟩

theorem Registered.processTimers (h : Registered s) (now : Int) : Registered (s.processTimers now) := by
  have hnumbers : (s.timers.map (turn now)).map (·.timer) = s.timers.map (·.timer) := by
    rw [map_map]
    apply map_congr_left
    intro t _
    exact turn_timer now t
  have hnamed : ∀ t ∈ s.timers, ∀ timer, t.callback = some (.callback timer) → t.timer = timer := by
    intro t ht timer hcallback
    rcases h.callback t ht with hnone | hsome
    · rw [hnone] at hcallback
      cases hcallback
    · rw [hsome] at hcallback
      cases hcallback
      rfl
  constructor
  · apply List.Nodup.sublist (filter_sublist.map _)
    rw [hnumbers]
    exact h.numbers
  · intro t' ht'
    obtain ⟨t, ht, rfl, -⟩ := mem_processTimers_timers ht'
    rw [turn_timer]
    exact h.older t ht
  · intro t' ht'
    obtain ⟨t, ht, rfl, -⟩ := mem_processTimers_timers ht'
    rw [turn_timer, turn_callback]
    exact h.callback t ht
  · intro item hitem timer htask
    rcases mem_processTimers_queue hitem with hold | ⟨t, ht, -, heq⟩
    · exact h.queued item hold timer htask
    · rw [htask] at heq
      rw [← hnamed t ht timer heq.symm]
      exact h.older t ht
  · intro t' ht' honce item hitem htask
    obtain ⟨t, ht, rfl, hactive⟩ := mem_processTimers_timers ht'
    rw [turn_repeats] at honce
    rw [turn_timer] at htask
    rcases mem_processTimers_queue hitem with hold | ⟨t₂, ht₂, hexpired, heq⟩
    · exact h.once t ht honce item hold htask
    · rw [htask] at heq
      have hsame := h.eq_of_timer ht₂ ht (hnamed t₂ ht₂ t.timer heq.symm)
      rw [hsame, not_expired_of_turn hactive honce] at hexpired
      cases hexpired

theorem call_timers (s : EventLoop) (task : Option Task) : (call s task).1.timers = s.timers := by
  cases task with
  | none => rfl
  | some task => rfl

theorem call_queue (s : EventLoop) (task : Option Task) : (call s task).1.queue = s.queue := by
  cases task with
  | none => rfl
  | some task => rfl

theorem call_added (s : EventLoop) (task : Option Task) : (call s task).1.added = s.added := by
  cases task with
  | none => rfl
  | some task => rfl

theorem Registered.step (h : Registered s) (hstep : step s action = some (s', events)) :
    Registered s' := by
  rcases step_cases hstep with ⟨callable, now, interval, repeats, rfl, -⟩ |
    ⟨task, priority, rfl, htask, -⟩ | ⟨onLoop, id, -, rfl, -⟩ | ⟨now, stack, rfl, -⟩ |
    ⟨i, item, stack, -, rfl, -⟩ | ⟨stack, rfl, -⟩
  · exact h.addTimer callable repeats now interval
  · refine h.shrink (List.Sublist.refl _) ?_ rfl
    intro item hitem timer heq
    rcases mem_append.1 hitem with hold | hnew
    · exact hold
    · rw [mem_singleton.1 hnew] at heq
      exact absurd heq (htask timer)
  · refine h.shrink ?_ ?_ (cancelTimer_added s id)
    · rw [cancelTimer_timers]
      exact filter_sublist
    · intro item hitem timer heq
      rcases mem_cancelTimer_queue hitem with hold | hwake
      · exact hold
      · rw [hwake] at heq
        cases heq
  · exact (h.processTimers now).shrink (List.Sublist.refl _) (fun _ hitem _ _ => hitem) rfl
  · refine h.shrink ?_ ?_ (call_added _ _)
    · rw [call_timers]
    · intro other hother _ _
      rw [call_queue] at hother
      exact mem_of_mem_eraseIdx hother
  · exact h.shrink (List.Sublist.refl _) (fun _ hitem _ _ => hitem) rfl

/-- The timer is not registered and no copy of its callback is queued. -/
structure Gone (s : EventLoop) (k : Nat) : Prop where
  timers : ∀ t ∈ s.timers, t.timer ≠ k
  queue : ∀ item ∈ s.queue, item.task ≠ some (.callback k)
  older : k < s.added

theorem Gone.step (h : Gone s k) (hregistered : Registered s)
    (hstep : step s action = some (s', events)) : Gone s' k ∧ .started k ∉ events := by
  rcases step_cases hstep with ⟨callable, now, interval, repeats, rfl, rfl⟩ |
    ⟨task, priority, rfl, htask, rfl⟩ | ⟨onLoop, id, -, rfl, rfl⟩ | ⟨now, stack, rfl, rfl⟩ |
    ⟨i, item, stack, hitem, rfl, rfl⟩ | ⟨stack, rfl, rfl⟩
  · refine ⟨⟨?_, ?_, Nat.lt_succ_of_lt h.older⟩, not_mem_nil⟩
    · intro t ht
      rcases mem_addTimer ht with hold | ⟨heq, -⟩
      · exact h.timers t hold
      · rw [heq]
        exact (Nat.ne_of_lt h.older).symm
    · intro item hitem
      rcases mem_append.1 hitem with hold | hnew
      · exact h.queue item hold
      · rw [mem_singleton.1 hnew]
        simp
  · refine ⟨⟨h.timers, ?_, h.older⟩, not_mem_nil⟩
    intro item hitem
    rcases mem_append.1 hitem with hold | hnew
    · exact h.queue item hold
    · rw [mem_singleton.1 hnew]
      exact htask k
  · refine ⟨⟨?_, ?_, (cancelTimer_added s id).symm ▸ h.older⟩, by simp⟩
    · intro t ht
      rw [cancelTimer_timers] at ht
      exact h.timers t (mem_of_mem_filter ht)
    · intro item hitem
      rcases mem_cancelTimer_queue hitem with hold | hwake
      · exact h.queue item hold
      · rw [hwake]
        simp
  · refine ⟨⟨?_, ?_, h.older⟩, not_mem_nil⟩
    · intro t' ht'
      obtain ⟨t, ht, rfl, -⟩ := mem_processTimers_timers ht'
      rw [turn_timer]
      exact h.timers t ht
    · intro item hitem
      rcases mem_processTimers_queue hitem with hold | ⟨t, ht, -, heq⟩
      · exact h.queue item hold
      · rw [heq]
        rcases hregistered.callback t ht with hnone | hsome
        · simp [hnone]
        · simp [hsome, h.timers t ht]
  · have hmem := mem_of_getElem? hitem
    refine ⟨⟨?_, ?_, (call_added _ _).symm ▸ h.older⟩, ?_⟩
    · rw [call_timers]
      exact h.timers
    · intro other hother
      rw [call_queue] at hother
      exact h.queue other (mem_of_mem_eraseIdx hother)
    · have hne := h.queue item hmem
      intro hstarted
      cases htask : item.task with
      | none => simp [htask, call] at hstarted
      | some task =>
        rw [htask] at hstarted hne
        cases task with
        | wake => simp [call] at hstarted
        | posted => simp [call] at hstarted
        | callback timer =>
          obtain rfl : k = timer := by simpa [call] using hstarted
          exact hne rfl
  · exact ⟨⟨h.timers, h.queue, h.older⟩, not_mem_nil⟩

theorem Gone.run (h : Gone s k) (hregistered : Registered s)
    (hrun : run s actions = some (s', events)) : .started k ∉ events := by
  induction actions generalizing s events with
  | nil =>
    cases hrun
    exact not_mem_nil
  | cons action actions ih =>
    simp only [run, Option.bind_eq_bind, Option.bind_eq_some_iff, Prod.exists] at hrun
    obtain ⟨s₁, first, hstep, s₂, more, hrest, rfl, rfl⟩ := hrun
    obtain ⟨hgone, hfirst⟩ := h.step hregistered hstep
    rw [mem_append]
    rintro (hmem | hmem)
    · exact hfirst hmem
    · exact ih hgone (hregistered.step hstep) hrest hmem

/-- Behind a call where that is clear, the timers taken away are gone. -/
theorem Clear.gone {timer : Nat} (h : Clear s id) (hregistered : Registered s)
    (htimer : timer ∈ (s.cancelTimer id).2.2) : Gone (s.cancelTimer id).1 timer := by
  obtain ⟨t, ht, hid, rfl⟩ := mem_erased.1 htimer
  constructor
  · intro t' ht' heq
    rw [cancelTimer_timers] at ht'
    obtain ⟨hmem, hne⟩ := mem_filter.1 ht'
    rw [hregistered.eq_of_timer hmem ht heq] at hne
    simp [hid] at hne
  · intro item hitem htask
    rcases mem_cancelTimer_queue hitem with hold | hwake
    · cases hrepeats : t.repeats with
      | true => exact h t ht hid hrepeats item hold htask
      | false => exact hregistered.once t ht hrepeats item hold htask
    · rw [hwake] at htask
      cases htask
  · rw [cancelTimer_added]
    exact hregistered.older t ht

theorem run_cons {s₂ : EventLoop} {more : List Event} (hstep : step s action = some (s₁, first))
    (hrun : run s₁ actions = some (s₂, more)) :
    run s (action :: actions) = some (s₂, first ++ more) := by
  simp [run, hstep, hrun]

theorem run_single (hstep : step s action = some (s₁, first)) :
    run s [action] = some (s₁, first) := by
  simp [run, hstep]

/-- Some item is before all others. -/
theorem exists_top (queue : List TaskItem) (h : queue ≠ []) :
    ∃ item ∈ queue, ∀ other ∈ queue, item.priority ≤ other.priority := by
  induction queue with
  | nil => exact absurd rfl h
  | cons first rest ih =>
    by_cases hrest : rest = []
    · subst hrest
      exact ⟨first, mem_singleton_self _, by simp⟩
    · obtain ⟨item, hitem, hle⟩ := ih hrest
      rcases Int.le_total first.priority item.priority with hfirst | hfirst
      · refine ⟨first, mem_cons_self, ?_⟩
        intro other hother
        rcases mem_cons.1 hother with rfl | hother
        · exact Int.le_refl _
        · exact Int.le_trans hfirst (hle other hother)
      · refine ⟨item, mem_cons_of_mem _ hitem, ?_⟩
        intro other hother
        rcases mem_cons.1 hother with rfl | hother
        · exact hfirst
        · exact hle other hother

/-- At some time nothing has expired. -/
theorem exists_early (timers : List JobTimer) : ∃ now, timers.filter (·.expired now) = [] := by
  have hearly : ∃ now, ∀ t ∈ timers, now < t.next := by
    induction timers with
    | nil => exact ⟨0, by simp⟩
    | cons first rest ih =>
      obtain ⟨now, hnow⟩ := ih
      refine ⟨min now (first.next - 1), ?_⟩
      intro t ht
      rcases mem_cons.1 ht with rfl | ht
      · omega
      · have hlt := hnow t ht
        omega
  obtain ⟨now, hnow⟩ := hearly
  refine ⟨now, filter_eq_nil_iff.2 ?_⟩
  intro t ht
  have hlt := hnow t ht
  simp only [JobTimer.expired, Bool.and_eq_true, decide_eq_true_eq]
  omega

/-- From a task the loop can be called, and comes to its tasks with nothing new in the queue. -/
theorem exists_processTasks (h : s.inTask = true) : ∃ actions s', run s actions = some (s', []) ∧
    s'.queue = s.queue ∧ s'.stack = .processTasks false 0 :: s.stack := by
  obtain ⟨now, hnow⟩ := exists_early s.timers
  have hcalled : step s .runOnce =
      some ({ s with stack := .processTimers false :: s.stack }, []) := by
    simp [step, h]
  refine ⟨[.runOnce, .processTimers now], _, run_cons hcalled (run_single rfl), ?_, rfl⟩
  simp [EventLoop.processTimers, hnow]

theorem run_append {s₂ : EventLoop} {more : List Event} {rest : List Action}
    (hfirst : run s actions = some (s₁, first)) (hmore : run s₁ rest = some (s₂, more)) :
    run s (actions ++ rest) = some (s₂, first ++ more) := by
  induction actions generalizing s first with
  | nil =>
    cases hfirst
    exact hmore
  | cons action actions ih =>
    simp only [run, Option.bind_eq_bind, Option.bind_eq_some_iff, Prod.exists] at hfirst
    obtain ⟨s₃, before, hstep, s₄, after, hrest, rfl, rfl⟩ := hfirst
    rw [append_assoc]
    exact run_cons hstep (ih hrest)

/-- The callback is started in some run from here. -/
def Fires (s : EventLoop) (k : Nat) : Prop :=
  ∃ actions s' events, run s actions = some (s', events) ∧ .started k ∈ events

theorem Fires.after (h : Fires s₁ k) (hrun : run s actions = some (s₁, events)) : Fires s k := by
  obtain ⟨rest, s', more, hrest, hmem⟩ := h
  exact ⟨_, s', _, run_append hrun hrest, mem_append.2 (Or.inr hmem)⟩

def Queued (s : EventLoop) (k : Nat) : Prop := ∃ item ∈ s.queue, item.task = some (.callback k)

/-- A task before all others is taken; it is the callback, or the callback is still queued. -/
theorem exists_take {i : Nat} {rest : List Frame} (hstack : s.stack = .processTasks false i :: rest)
    (hi : i < 100) (hqueued : Queued s k) : ∃ j s₁ task, step s (.take j) = some (call s₁ task) ∧
      s₁.queue.length < s.queue.length ∧ s₁.stack = .processTasks false (i + 1) :: rest ∧
      (task = some (.callback k) ∨ Queued s₁ k) := by
  obtain ⟨mine, hmine, htask⟩ := hqueued
  obtain ⟨item, hitem, htop⟩ := exists_top s.queue (ne_nil_of_mem hmine)
  obtain ⟨j, hj, hget⟩ := getElem_of_mem hitem
  refine ⟨j, { s with queue := s.queue.eraseIdx j, stack := .processTasks false (i + 1) :: rest },
    item.task, ?_, ?_, rfl, ?_⟩
  · have hisTop : s.isTop item = true := by simpa [EventLoop.isTop] using htop
    simp [step, hstack, behindTake, hi, List.getElem?_eq_getElem hj, hget, hisTop]
  · rw [length_eraseIdx_of_lt hj]
    omega
  · by_cases heq : item.task = some (.callback k)
    · exact Or.inl heq
    · right
      obtain ⟨l, hl, hmine'⟩ := getElem_of_mem hmine
      refine ⟨mine, mem_eraseIdx_iff_getElem.2 ⟨l, hl, ?_, hmine'⟩, htask⟩
      rintro rfl
      rw [hget] at hmine'
      rw [hmine'] at heq
      exact heq htask

/-- A queued callback comes to its turn: each task in front of it is taken, and calls the loop. -/
theorem fires_of_queued (n : Nat) {rest : List Frame}
    (hrest : ∀ s : EventLoop, s.stack = rest → s.inTask = true) {i : Nat}
    (hn : s.queue.length ≤ n) (hstack : s.stack = .processTasks false i :: rest)
    (hqueued : Queued s k) : Fires s k := by
  induction n generalizing s i rest with
  | zero =>
    obtain ⟨item, hitem, -⟩ := hqueued
    have hpos := length_pos_of_mem hitem
    omega
  | succ n ih =>
    have htake : ∀ s i, s.queue.length ≤ n + 1 → s.stack = .processTasks false i :: rest → i < 100 →
        Queued s k → Fires s k := by
      intro s i hn hstack hi hqueued
      obtain ⟨j, s₁, task, hstep, hlength, hstack₁, hleft⟩ := exists_take hstack hi hqueued
      cases task with
      | none =>
        rcases hleft with hmine | hleft
        · cases hmine
        · exact (ih hrest (by omega) hstack₁ hleft).after (run_single hstep)
      | some task =>
        by_cases hk : task = .callback k
        · subst hk
          exact ⟨[.take j], _, _, run_single hstep, mem_singleton_self _⟩
        · rcases hleft with hmine | hleft
          · exact absurd (Option.some.inj hmine) hk
          -- the task calls the loop again
          · obtain ⟨actions, s₂, hrun, hqueue, hstack₂⟩ :=
              exists_processTasks (s := (call s₁ (some task)).1) rfl
            have hcalling : ∀ s' : EventLoop,
                s'.stack = (call s₁ (some task)).1.stack → s'.inTask = true := by
              intro s' heq
              rw [EventLoop.inTask, heq]
              rfl
            have hlength₂ : s₂.queue.length ≤ n := by
              rw [hqueue, call_queue]
              omega
            have hqueued₂ : Queued s₂ k := by
              obtain ⟨item, hitem, htask⟩ := hleft
              exact ⟨item, by rw [hqueue]; exact hitem, htask⟩
            exact (ih hcalling hlength₂ hstack₂ hqueued₂).after (run_cons hstep hrun)
    by_cases hi : i < 100
    · exact htake s i hn hstack hi hqueued
    -- at a hundred turns the pass ends, and another one begins
    · have hdone : step s .done = some ({ s with stack := rest }, []) := by
        simp [step, hstack, behindTasks, Nat.le_of_not_lt hi]
      obtain ⟨actions, s₂, hrun, hqueue, hstack₂⟩ :=
        exists_processTasks (s := { s with stack := rest }) (hrest _ rfl)
      have hqueued₂ : Queued s₂ k := by
        obtain ⟨item, hitem, htask⟩ := hqueued
        exact ⟨item, hqueue ▸ hitem, htask⟩
      exact (htake s₂ 0 (hqueue ▸ hn) hstack₂ (by decide) hqueued₂).after (run_cons hdone hrun)

theorem Registered.run (h : Registered s) (hrun : run s actions = some (s', events)) :
    Registered s' := by
  induction actions generalizing s events with
  | nil =>
    cases hrun
    exact h
  | cons action actions ih =>
    simp only [run, Option.bind_eq_bind, Option.bind_eq_some_iff, Prod.exists] at hrun
    obtain ⟨s₁, first, hstep, s₂, more, hrest, rfl, rfl⟩ := hrun
    exact ih (h.step hstep) hrest

/-- Where nothing is queued the timers that a call takes away are not started again, and only there. -/
theorem cancelTimer_final_iff (h : Registered s) (hin : s.inTask = true) (id : Nat) :
    (∀ timer ∈ (s.cancelTimer id).2.2, ¬ Fires (s.cancelTimer id).1 timer) ↔ Clear s id := by
  constructor
  · intro hnone t ht hid hrepeats item hitem htask
    apply hnone t.timer (mem_erased.2 ⟨t, ht, hid, rfl⟩)
    have hin' : (s.cancelTimer id).1.inTask = true := by
      rw [EventLoop.inTask, cancelTimer_stack]
      exact hin
    obtain ⟨actions, s', hrun, hqueue, hstack⟩ := exists_processTasks hin'
    have hqueued : Queued s' t.timer := ⟨item, hqueue ▸ queue_subset_cancelTimer hitem, htask⟩
    refine (fires_of_queued s'.queue.length ?_ (Nat.le_refl _) hstack hqueued).after hrun
    intro s'' heq
    rw [EventLoop.inTask, heq]
    exact hin'
  · rintro hclear timer htimer ⟨actions, s', events, hrun, hmem⟩
    have hstep : step s (.cancelTimer true id) = some ((s.cancelTimer id).1,
        [.cancelled true id (s.cancelTimer id).2.1 (s.cancelTimer id).2.2]) := by
      simp [step, hin]
    have hregistered : Registered (s.cancelTimer id).1 := h.step hstep
    exact (hclear.gone h htimer).run hregistered hrun hmem

/-- What a call of `cancelTimer` has to do with its event. -/
theorem cancelled_of_step (h : step s action = some (s', events)) {onLoop ret : Bool}
    {erased : List Nat} (hmem : .cancelled onLoop id ret erased ∈ events) :
    action = .cancelTimer onLoop id ∧ s' = (s.cancelTimer id).1 ∧
      erased = (s.cancelTimer id).2.2 ∧ events = [.cancelled onLoop id ret erased] := by
  rcases step_cases h with ⟨callable, now, interval, repeats, -, rfl⟩ |
    ⟨task, priority, -, -, rfl⟩ | ⟨onLoop', id', haction, hs', rfl⟩ | ⟨now, stack, -, rfl⟩ |
    ⟨i, item, stack, -, -, rfl⟩ | ⟨stack, -, rfl⟩
  · cases hmem
  · cases hmem
  · cases mem_singleton.1 hmem
    exact ⟨haction, hs', rfl, rfl⟩
  · cases hmem
  · cases htask : item.task with
    | none => simp [htask, call] at hmem
    | some task =>
      rw [htask] at hmem
      cases task with
      | wake => simp [call] at hmem
      | posted => simp [call] at hmem
      | callback timer => simp [call] at hmem
  · cases hmem

theorem ClearRun.neverFires (h : ClearRun s actions) (hregistered : Registered s)
    (hrun : run s actions = some (s', events)) : NeverFires events := by
  induction actions generalizing s events with
  | nil =>
    cases hrun
    intro before after id erased heq
    simp at heq
  | cons action actions ih =>
    simp only [run, Option.bind_eq_bind, Option.bind_eq_some_iff, Prod.exists] at hrun
    obtain ⟨s₁, first, hstep, s₂, more, hrest, rfl, rfl⟩ := hrun
    obtain ⟨hclear, hlater⟩ := h
    have hregistered₁ := hregistered.step hstep
    have hmore := ih (hlater (s₁, first) hstep) hregistered₁ hrest
    intro before after id erased heq timer htimer
    rcases append_eq_append_iff.1 heq with ⟨middle, rfl, hmiddle⟩ | ⟨middle, hfirst, hmiddle⟩
    · exact hmore middle after id erased hmiddle timer htimer
    · cases middle with
      | nil => exact hmore [] after id erased hmiddle.symm timer htimer
      | cons event middle =>
        obtain ⟨rfl, rfl⟩ := List.cons.inj hmiddle
        obtain ⟨rfl, rfl, rfl, hevents⟩ := cancelled_of_step hstep
          (hfirst ▸ mem_append.2 (Or.inr mem_cons_self))
        have hlength := congrArg List.length (hfirst.symm.trans hevents)
        simp only [length_append, length_cons, length_nil] at hlength
        obtain rfl := eq_nil_of_length_eq_zero (show middle.length = 0 by omega)
        exact (Clear.gone hclear hregistered htimer).run hregistered₁ hrest

/-- In a run whose calls of `cancelTimer` are clear the timers that they took away are not started
again. In any run the next call has that effect just where it is clear. -/
theorem cancelTimer_runs (started : Bool) (actions : List Action) (s : EventLoop)
    (events : List Event) (hrun : run (create started) actions = some (s, events)) :
    (ClearRun (create started) actions → NeverFires events) ∧
      (s.inTask = true → ∀ id,
        (∀ timer ∈ (s.cancelTimer id).2.2, ¬ Fires (s.cancelTimer id).1 timer) ↔ Clear s id) := by
  have hregistered := registered_create started
  constructor
  · exact fun hclear => hclear.neverFires hregistered hrun
  · exact fun hin id => cancelTimer_final_iff (hregistered.run hrun) hin id

/-- A timer that fires once and a repeating one are due at the same time, and the callback of the
first takes the other away. -/
def sameTimeActions : List Action :=
  [.addTimer false true 0 5 false, .addTimer false true 0 5 true,
    .take 0, .taskReturns, .processTimers 1, .take 0, .taskReturns, .takeNone,
    .takeNone, .processTimers 5, .take 0, .cancelTimer true 2, .taskReturns, .take 0]

theorem sameTime_fires : ¬ ∀ actions s events,
    run (create true) actions = some (s, events) → NeverFires events := by
  intro hall
  have hevents : (run (create true) sameTimeActions).map Prod.snd =
      some [.started 0, .cancelled true 2 true [1], .started 1] := by
    decide
  obtain ⟨⟨s, events⟩, hrun, rfl⟩ := Option.map_eq_some_iff.1 hevents
  exact hall _ s _ hrun [.started 0] [.started 1] 2 [1] rfl 1 (by decide) (by decide)

/-- The repeating timer is due later, and its callback is not queued when it is taken away. -/
def laterActions : List Action :=
  [.addTimer false true 0 5 false, .addTimer false true 0 9 true,
    .take 0, .taskReturns, .processTimers 1, .take 0, .taskReturns, .takeNone,
    .takeNone, .processTimers 5, .take 0, .cancelTimer true 2, .taskReturns, .take 0]

theorem cancelTimer_runs_later : ∃ s events,
    run (create true) laterActions = some (s, events) ∧
      events = [.started 0, .cancelled true 2 true [1]] ∧ NeverFires events := by
  have hevents : (run (create true) laterActions).map Prod.snd =
      some [.started 0, .cancelled true 2 true [1]] := by
    decide
  obtain ⟨⟨s, events⟩, hrun, rfl⟩ := Option.map_eq_some_iff.1 hevents
  exact ⟨s, _, hrun, rfl, (cancelTimer_runs true _ s _ hrun).1 (by decide)⟩

end AsyncEventLoop

end JobThreads
