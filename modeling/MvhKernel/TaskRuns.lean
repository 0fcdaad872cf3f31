-- Runs of the scheduler: critical sections and context switches in any order that the
-- CPUs allow.
import MvhKernel.Task

namespace mvh.task

/-! ## One step -/

inductive Op where
  | create (name : Option (List Char)) (entry : UInt64) (priority : UInt8) (affinity stack : UInt64)
  | yield (cpu_id : Cpu)
  | contextSwitch (cpu_id : Cpu)
  | sleep (cpu_id : Cpu) (wake_tick : UInt64)
  | exit (cpu_id : Cpu)
  | wake (pid : UInt32)
  | block (pid : UInt32)
  | setAffinity (pid : UInt32) (affinity : UInt64)
  | tick (tick : UInt64)
  | reap (pid : UInt32)

def Scheduler.step (s : Scheduler) : Op → Scheduler
  | .create name entry priority affinity stack => (task_create_kernel s name entry priority affinity stack).2.2
  | .yield cpu_id => task_yield s cpu_id
  | .contextSwitch cpu_id => task_context_switch s cpu_id
  | .sleep cpu_id wake_tick => task_sleep s cpu_id wake_tick
  | .exit cpu_id => task_exit s cpu_id
  | .wake pid => (task_wake s pid).2
  | .block pid => (task_block s pid).2
  | .setAffinity pid affinity => (task_set_affinity s pid affinity).2
  | .tick tick => task_scheduler_tick s tick
  | .reap pid => (task_reap s pid).2.2

def Activity.isSwitching : Activity → Bool
  | .switching _ _ _ => true
  | _ => false

/-- What the thread on the CPU can do next. -/
def Enabled (s : Scheduler) : Op → Prop
  | .yield cpu_id => (s.activity cpu_id).isSwitching = false
  | .contextSwitch cpu_id => (s.activity cpu_id).isSwitching = true
  | .sleep cpu_id _ => s.activity cpu_id = .runs .code
  | .exit cpu_id => s.activity cpu_id = .runs .code ∧ ∃ index, index ≠ 0 ∧ s.current_task cpu_id = some index
  | _ => True

instance (s : Scheduler) (op : Op) : Decidable (Enabled s op) :=
  match op with
  | .yield _ | .contextSwitch _ => inferInstanceAs (Decidable (_ = _))
  | .sleep _ _ => inferInstanceAs (Decidable (_ = _))
  | .exit _ => inferInstanceAs (Decidable (_ ∧ _))
  | .create .. | .wake _ | .block _ | .setAffinity _ _ | .tick _ | .reap _ => .isTrue trivial

def InOrder (s : Scheduler) : List Op → Prop
  | [] => True
  | op :: ops => Enabled s op ∧ InOrder (s.step op) ops

instance decidableInOrder (s : Scheduler) (ops : List Op) : Decidable (InOrder s ops) :=
  match ops with
  | [] => .isTrue trivial
  | op :: ops => @instDecidableAnd _ _ _ (decidableInOrder (s.step op) ops)

def Scheduler.run (s : Scheduler) : List Op → Scheduler
  | [] => s
  | op :: ops => (s.step op).run ops

theorem inOrder_append {s : Scheduler} {first second : List Op} (hf : InOrder s first)
    (hs : InOrder (s.run first) second) :
    InOrder s (first ++ second) ∧ s.run (first ++ second) = (s.run first).run second := by
  induction first generalizing s with
  | nil => exact ⟨hs, rfl⟩
  | cons op first ih =>
    obtain ⟨ho, hr⟩ := ih hf.2 hs
    exact ⟨⟨hf.1, ho⟩, hr⟩

/-! ## The states of the tasks -/

section
variable (s : Scheduler) (index : Index)

theorem state_setTask (t : TaskControl) :
    (s.setTask index t).state = Function.update s.state index t.info.state := by
  funext i
  by_cases h : i = index
  · subst h
    simp [Scheduler.setTask, Scheduler.state]
  · simp [Scheduler.setTask, Scheduler.state, h]

theorem state_setInfo (i : TaskInfo) :
    (s.setInfo index i).state = Function.update s.state index i.state := state_setTask ..

theorem state_setState (state : TaskState) :
    (s.setState index state).state = Function.update s.state index state := state_setTask ..

@[simp] theorem stats_setStats (stats : SchedulerStats) : (s.setStats stats).scheduler_stats = stats := rfl

@[simp] theorem stats_setTask (t : TaskControl) :
    (s.setTask index t).scheduler_stats = s.scheduler_stats := rfl

@[simp] theorem stats_setInfo (i : TaskInfo) :
    (s.setInfo index i).scheduler_stats = s.scheduler_stats := rfl

@[simp] theorem stats_setState (st : TaskState) :
    (s.setState index st).scheduler_stats = s.scheduler_stats := rfl

@[simp] theorem stats_setActivity (cpu_id : Cpu) (a : Activity) :
    (s.setActivity cpu_id a).scheduler_stats = s.scheduler_stats := rfl

@[simp] theorem state_setStats (st : SchedulerStats) : (s.setStats st).state = s.state := rfl

@[simp] theorem state_setActivity (cpu_id : Cpu) (a : Activity) :
    (s.setActivity cpu_id a).state = s.state := rfl

theorem part_setTask {P : Type} (part : TaskInfo → P) {t : TaskControl}
    (h : part t.info = part (s.tasks index).info) (i : Index) :
    part ((s.setTask index t).tasks i).info = part (s.tasks i).info := by
  unfold Scheduler.setTask
  grind

theorem state_setTask_same {t : TaskControl} (h : t.info.state = s.state index) :
    (s.setTask index t).state = s.state :=
  funext (part_setTask s index TaskInfo.state h)

end

/-! ## The next task -/

theorem mem_cyclicFrom (cursor index : Index) : index ∈ cyclicFrom cursor := by
  refine List.mem_map.mpr ⟨index - cursor - 1, List.mem_finRange _, ?_⟩
  grind

def Runnable (s : Scheduler) (cpu_id : Cpu) (index : Index) : Prop :=
  s.state index = .READY ∧ affine (s.tasks index).info.affinity cpu_id = true

section
variable {s : Scheduler} {cpu_id : Cpu} {previous : Index}

theorem choose_next_turn_cases (b : Index × UInt8) (index : Index) :
    choose_next_turn s cpu_id previous b index = b ∨
      (Runnable s cpu_id index ∧ (choose_next_turn s cpu_id previous b index).1 = index) := by
  unfold choose_next_turn
  dsimp only
  split
  next h => exact Or.inr ⟨⟨h.1, h.2.1⟩, rfl⟩
  next => exact Or.inl rfl

theorem choose_next_loop_runnable (indices : List Index) (b : Index × UInt8)
    (hb : b.1 = previous ∨ Runnable s cpu_id b.1) :
    let chosen := (indices.foldl (choose_next_turn s cpu_id previous) b).1
    chosen = previous ∨ Runnable s cpu_id chosen := by
  induction indices generalizing b with
  | nil => exact hb
  | cons index indices ih =>
    apply ih
    rcases @choose_next_turn_cases s cpu_id previous b index with h | ⟨hr, h⟩
    · rwa [h]
    · rw [h]
      exact Or.inr hr

theorem choose_next_loop_ne (hp : ¬ Runnable s cpu_id previous) (indices : List Index)
    (b : Index × UInt8) (hf : b.1 ≠ previous ∨ ∃ index ∈ indices, Runnable s cpu_id index) :
    (indices.foldl (choose_next_turn s cpu_id previous) b).1 ≠ previous := by
  induction indices generalizing b with
  | nil => grind
  | cons index indices ih =>
    apply ih
    by_cases hi : Runnable s cpu_id index
    · -- This one is taken, unless another one was taken before.
      have hne : index ≠ previous := fun he => hp (he ▸ hi)
      rcases @choose_next_turn_cases s cpu_id previous b index with h | ⟨_, h⟩
      · refine Or.inl fun he => ?_
        rw [h] at he
        have ht : (choose_next_turn s cpu_id previous b index).1 = index := by
          unfold choose_next_turn
          rw [if_pos ⟨hi.1, hi.2, Or.inl he⟩]
        grind
      · rw [h]
        exact Or.inl hne
    · rcases @choose_next_turn_cases s cpu_id previous b index with h | ⟨hr, _⟩
      · grind
      · exact absurd hr hi

theorem choose_next_runnable (h : choose_next s cpu_id previous ≠ previous) :
    Runnable s cpu_id (choose_next s cpu_id previous) := by
  have hl := @choose_next_loop_runnable s cpu_id previous (cyclicFrom (s.round_robin_cursor cpu_id))
    (previous, 0) (Or.inl rfl)
  exact hl.resolve_left h

theorem choose_next_eq_iff (hp : ¬ Runnable s cpu_id previous) :
    choose_next s cpu_id previous = previous ↔ ∀ index, ¬ Runnable s cpu_id index := by
  constructor
  · intro h index hi
    have hne := choose_next_loop_ne hp (cyclicFrom (s.round_robin_cursor cpu_id)) (previous, 0)
      (Or.inr ⟨index, mem_cyclicFrom _ index, hi⟩)
    exact hne h
  · intro hn
    by_contra h
    exact hn _ (choose_next_runnable h)

end

/-! ## What a yield does -/

/-- The task that yields is neither running nor ready, and no task can run on its CPU. -/
def Stuck (s : Scheduler) : Op → Prop
  | .yield cpu_id => ∃ previous, s.current_task cpu_id = some previous ∧ s.state previous ≠ .RUNNING ∧
      s.state previous ≠ .READY ∧ ∀ index, ¬ Runnable s cpu_id index
  | _ => False

instance (s : Scheduler) (cpu_id : Cpu) (index : Index) : Decidable (Runnable s cpu_id index) :=
  inferInstanceAs (Decidable (_ ∧ _))

instance (s : Scheduler) (op : Op) : Decidable (Stuck s op) :=
  match op with
  | .yield _ => inferInstanceAs (Decidable (∃ _, _))
  | .create .. | .contextSwitch _ | .sleep _ _ | .exit _ | .wake _ | .block _ | .setAffinity _ _
  | .tick _ | .reap _ => .isFalse not_false

section
variable {s : Scheduler} {cpu_id : Cpu} {previous : Index}

theorem task_yield_some (h : s.current_task cpu_id = some previous) :
    task_yield s cpu_id =
      let s' := stepBack s previous
      let next := choose_next s' cpu_id previous
      if next = previous then goOn s' cpu_id previous else switchTo s' cpu_id previous next := by
  unfold task_yield
  rw [h]

theorem task_yield_of_stuck (h : Stuck s (.yield cpu_id)) :
    ∃ previous, s.current_task cpu_id = some previous ∧ s.state previous ≠ .RUNNING ∧
      s.state previous ≠ .READY ∧ task_yield s cpu_id = goOn s cpu_id previous := by
  obtain ⟨previous, hc, hr, hrd, hn⟩ := h
  refine ⟨previous, hc, hr, hrd, ?_⟩
  have hb : stepBack s previous = s := if_neg hr
  have hnx := (choose_next_eq_iff (hn previous)).mpr hn
  grind [task_yield_some]

theorem task_yield_cases (hc : s.current_task cpu_id = some previous)
    (hs : ¬ Stuck s (.yield cpu_id)) :
    (∃ next, next ≠ previous ∧ (stepBack s previous).state next = .READY ∧
      task_yield s cpu_id = switchTo (stepBack s previous) cpu_id previous next) ∨
    ((stepBack s previous).state previous = .READY ∧
      task_yield s cpu_id = goOn (stepBack s previous) cpu_id previous) := by
  rw [task_yield_some hc]
  dsimp only
  by_cases hn : choose_next (stepBack s previous) cpu_id previous = previous
  · rw [if_pos hn]
    refine Or.inr ⟨?_, rfl⟩
    by_contra hr
    have hrn : s.state previous ≠ .RUNNING := by
      intro hru
      apply hr
      unfold stepBack
      rw [if_pos hru, state_setStats, state_setState, Function.update_self]
    have hb : stepBack s previous = s := if_neg hrn
    rw [hb] at hr hn
    exact hs ⟨previous, hc, hrn, hr,
      (choose_next_eq_iff fun hru => hr hru.1).mp hn⟩
  · rw [if_neg hn]
    exact Or.inl ⟨_, hn, (choose_next_runnable hn).1, rfl⟩

theorem state_stepBack : (stepBack s previous).state =
    if s.state previous = .RUNNING then Function.update s.state previous .READY else s.state := by
  unfold stepBack
  split
  · rw [state_setStats, state_setState]
  · rfl

theorem tasks_stepBack {previous : Index} (h : s.state previous = .RUNNING) :
    (stepBack s previous).tasks = Function.update s.tasks previous
      { s.tasks previous with info := { (s.tasks previous).info with state := .READY } } := by
  unfold stepBack
  rw [if_pos h]
  rfl

theorem stepBack_rest (s : Scheduler) (previous : Index) :
    (stepBack s previous).activity = s.activity ∧ (stepBack s previous).next_pid = s.next_pid := by
  unfold stepBack
  split <;> exact ⟨rfl, rfl⟩

theorem state_goOn : (goOn s cpu_id previous).state = Function.update s.state previous .RUNNING := by
  unfold goOn
  dsimp only
  rw [state_setActivity, state_setStats, state_setState]

theorem state_switchTo {next : Index} :
    (switchTo s cpu_id previous next).state = Function.update s.state next .RUNNING := by
  unfold switchTo
  dsimp only
  rw [state_setActivity]
  exact state_setInfo ..

def YieldKeeps {P : Type} (part : TaskInfo → P) : Prop :=
  ∀ info state cpu_id context_switches,
    part { info with state, cpu_id, context_switches } = part info

theorem part_stepBack {P : Type} {part : TaskInfo → P} (hp : YieldKeeps part) (index : Index) :
    part ((stepBack s previous).tasks index).info = part (s.tasks index).info := by
  unfold stepBack
  split
  · refine part_setTask s previous part ?_ index
    exact hp ..
  · rfl

theorem part_task_yield {P : Type} {part : TaskInfo → P} (hp : YieldKeeps part) (index : Index) :
    part ((task_yield s cpu_id).tasks index).info = part (s.tasks index).info := by
  rcases hc : s.current_task cpu_id with _ | previous
  · unfold task_yield
    rw [hc]
  have hb : part ((stepBack s previous).tasks index).info = part (s.tasks index).info :=
    part_stepBack hp index
  rw [task_yield_some hc]
  dsimp only
  split
  · refine Eq.trans (part_setTask (stepBack s previous) previous part ?_ index) hb
    exact hp ..
  · refine Eq.trans (part_setTask (stepBack s previous) _ part ?_ index) hb
    exact hp ..

theorem part_context_switch {P : Type} (part : TaskInfo → P) (index : Index) :
    part ((task_context_switch s cpu_id).tasks index).info = part (s.tasks index).info := by
  unfold task_context_switch
  split
  · refine part_setTask s _ part ?_ index
    rfl
  · rfl

end

/-! ## Changes of state -/

/-- The changes of state that a step may make, given the task before it. -/
inductive Allowed : Op → TaskInfo → TaskState → Prop
  | create {name entry priority affinity stack info} (h : info.state = .UNUSED) :
      Allowed (.create name entry priority affinity stack) info .READY
  | run {cpu_id info} (h : info.state = .READY) : Allowed (.yield cpu_id) info .RUNNING
  | stepBack {cpu_id info} (h : info.state = .RUNNING) : Allowed (.yield cpu_id) info .READY
  | sleep {cpu_id wake_tick info} (h : info.state = .RUNNING) : Allowed (.sleep cpu_id wake_tick) info .SLEEPING
  | exit {cpu_id info} (h : info.state = .RUNNING) : Allowed (.exit cpu_id) info .ZOMBIE
  | wake {pid info} (h : info.state = .SLEEPING ∨ info.state = .BLOCKED) : Allowed (.wake pid) info .READY
  | tick {tick info} (h : info.state = .SLEEPING) (hwake : info.wake_tick ≤ tick) :
      Allowed (.tick tick) info .READY
  | block {pid info} (h : info.state = .READY) : Allowed (.block pid) info .BLOCKED
  | reap {pid info} (h : info.state = .ZOMBIE) : Allowed (.reap pid) info .UNUSED

def Legal (s : Scheduler) (op : Op) : Prop :=
  ∀ index, (s.step op).state index = s.state index ∨
    Allowed op (s.tasks index).info ((s.step op).state index)

theorem legal_of_update {s : Scheduler} {op : Op} {i : Index} {st : TaskState}
    (hs : (s.step op).state = Function.update s.state i st)
    (ha : Allowed op (s.tasks i).info st) : Legal s op := by
  intro index
  rw [hs]
  grind

theorem legal_of_same {s : Scheduler} {op : Op} (hs : (s.step op).state = s.state) : Legal s op :=
  fun index => Or.inl (congrFun hs index)

end mvh.task
