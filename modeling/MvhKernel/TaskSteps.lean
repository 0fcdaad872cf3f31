-- What each critical section does to the states of the tasks and to the counters:
-- nothing, or it moves one task from one state to another.
import MvhKernel.TaskRuns

namespace mvh.task

/-- A counter for the state `c`, after a task went from `a` to `b`. -/
def moved (n : UInt32) (a b c : TaskState) : UInt32 :=
  n - (if a = c then 1 else 0) + (if b = c then 1 else 0)

/-- The number of tasks that were created and not reaped, after a task went from `a` to `b`. -/
def movedLive (n : UInt64) (a b : TaskState) : UInt64 :=
  n - (if a = .UNUSED then 0 else 1) + (if b = .UNUSED then 0 else 1)

/-- The task `i` goes to the state `b`, and the counters follow. -/
structure Moved (s s' : Scheduler) (i : Index) (b : TaskState) : Prop where
  state : s'.state = Function.update s.state i b
  running : s'.scheduler_stats.running = moved s.scheduler_stats.running (s.state i) b .RUNNING
  ready : s'.scheduler_stats.ready = moved s.scheduler_stats.ready (s.state i) b .READY
  sleeping : s'.scheduler_stats.sleeping = moved s.scheduler_stats.sleeping (s.state i) b .SLEEPING
  blocked : s'.scheduler_stats.blocked = moved s.scheduler_stats.blocked (s.state i) b .BLOCKED
  zombies : s'.scheduler_stats.zombies = moved s.scheduler_stats.zombies (s.state i) b .ZOMBIE
  live : s'.scheduler_stats.created - s'.scheduler_stats.reaped =
    movedLive (s.scheduler_stats.created - s.scheduler_stats.reaped) (s.state i) b

/-- No task changes its state, and the counters are the same. -/
structure Kept (s s' : Scheduler) : Prop where
  state : s'.state = s.state
  stats : s'.scheduler_stats = s.scheduler_stats

theorem Kept.refl (s : Scheduler) : Kept s s := ⟨rfl, rfl⟩

section
variable {s : Scheduler}

theorem stepBack_moved {p : Index} (h : s.state p = .RUNNING) :
    Moved s (stepBack s p) p .READY := by
  have hb : stepBack s p = _ := if_pos h
  rw [hb]
  constructor
  · rw [state_setStats, state_setState]
  all_goals simp [h, moved, movedLive]

theorem goOn_moved {c : Cpu} {p : Index} (h : s.state p = .READY) :
    Moved s (goOn s c p) p .RUNNING := by
  constructor
  · exact state_goOn
  all_goals simp [h, goOn, moved, movedLive]

theorem switchTo_moved {c : Cpu} {p next : Index} (h : s.state next = .READY) :
    Moved s (switchTo s c p next) next .RUNNING := by
  constructor
  · exact state_switchTo
  all_goals simp [h, switchTo, moved, movedLive]

theorem task_sleep_moved {c : Cpu} {index : Index} (w : UInt64)
    (hc : s.current_task c = some index) (h : s.state index = .RUNNING) :
    Moved s (task_sleep s c w) index .SLEEPING := by
  unfold task_sleep
  rw [hc]
  constructor
  · exact state_setInfo ..
  all_goals simp [h, moved, movedLive]

theorem task_exit_moved {c : Cpu} {index : Index}
    (hc : s.current_task c = some index) (h : s.state index = .RUNNING) :
    Moved s (task_exit s c) index .ZOMBIE := by
  unfold task_exit
  rw [hc]
  constructor
  · exact state_setState ..
  all_goals simp [h, moved, movedLive]

theorem task_wake_effect (s : Scheduler) (pid : UInt32) : Kept s (task_wake s pid).2 ∨
    ∃ i, (s.state i = .SLEEPING ∨ s.state i = .BLOCKED) ∧ Moved s (task_wake s pid).2 i .READY := by
  unfold task_wake
  split
  · exact Or.inl (Kept.refl s)
  next i _ =>
    split
    · exact Or.inl (Kept.refl s)
    next hs =>
      have hf : s.state i = .SLEEPING ∨ s.state i = .BLOCKED := by grind
      refine Or.inr ⟨i, hf, ?_⟩
      rcases hf with h | h
      all_goals
        constructor
        · exact state_setState ..
        all_goals simp [h, moved, movedLive]

theorem task_block_effect (s : Scheduler) (pid : UInt32) : Kept s (task_block s pid).2 ∨
    ∃ i, s.state i = .READY ∧ Moved s (task_block s pid).2 i .BLOCKED := by
  unfold task_block
  split
  · exact Or.inl (Kept.refl s)
  next i _ =>
    split
    · exact Or.inl (Kept.refl s)
    next hs =>
      have h : s.state i = .READY := not_not.mp hs
      refine Or.inr ⟨i, h, ?_⟩
      constructor
      · exact state_setState ..
      all_goals simp [h, moved, movedLive]

theorem task_set_affinity_kept (s : Scheduler) (pid : UInt32) (a : UInt64) :
    Kept s (task_set_affinity s pid a).2 := by
  unfold task_set_affinity
  split
  · exact Kept.refl s
  split
  · exact Kept.refl s
  · exact ⟨state_setTask_same _ _ rfl, rfl⟩

theorem task_context_switch_kept (s : Scheduler) (c : Cpu) :
    Kept s (task_context_switch s c) := by
  unfold task_context_switch
  split
  · exact ⟨state_setTask_same _ _ rfl, rfl⟩
  · exact Kept.refl s

theorem task_create_kernel_effect (s : Scheduler) (n : Option (List Char)) (e : UInt64)
    (p : UInt8) (a st : UInt64) :
    Kept s (task_create_kernel s n e p a st).2.2 ∨
      ∃ i, s.state i = .UNUSED ∧
        Moved s (task_create_kernel s n e p a st).2.2 i .READY := by
  unfold task_create_kernel
  split
  · exact Or.inl (Kept.refl s)
  split
  · exact Or.inl (Kept.refl s)
  split
  · exact Or.inl (Kept.refl s)
  split
  · exact Or.inl (Kept.refl s)
  next i hf =>
    have h : s.state i = .UNUSED := by simpa using List.find?_some hf
    refine Or.inr ⟨i, h, ?_⟩
    constructor
    · exact state_setTask ..
    all_goals simp [h, moved, movedLive]
    grind

theorem task_reap_effect (s : Scheduler) (pid : UInt32) : Kept s (task_reap s pid).2.2 ∨
    ∃ i, s.state i = .ZOMBIE ∧ Moved s (task_reap s pid).2.2 i .UNUSED := by
  unfold task_reap
  split
  · exact Or.inl (Kept.refl s)
  next i _ =>
    split
    · exact Or.inl (Kept.refl s)
    next hs =>
      have h : s.state i = .ZOMBIE := not_not.mp hs
      refine Or.inr ⟨i, h, ?_⟩
      constructor
      · exact state_setTask ..
      all_goals simp [h, moved, movedLive]
      grind

theorem tick_turn_effect (tick : UInt64) (s : Scheduler) (index : Index) :
    Kept s (tick_turn tick s index) ∨ (s.state index = .SLEEPING ∧ (s.tasks index).info.wake_tick ≤ tick ∧
      Moved s (tick_turn tick s index) index .READY) := by
  unfold tick_turn
  dsimp only
  by_cases hr : (s.tasks index).info.state = .RUNNING
  · rw [if_pos hr, if_neg]
    · exact Or.inl ⟨state_setTask_same _ _ rfl, rfl⟩
    · rw [state_setInfo, Function.update_self, hr]
      simp
  · rw [if_neg hr]
    split
    next h =>
      refine Or.inr ⟨h.1, h.2, ?_⟩
      constructor
      · exact state_setState ..
      all_goals simp [h.1, moved, movedLive]
    next => exact Or.inl (Kept.refl s)

end

end mvh.task
