-- The laws of the scheduler.
import MvhKernel.TaskSteps

open tally

namespace mvh.task

/-! ## The order of the steps -/

/-- Only CPU 0 has a current task, and that task runs whenever its thread is in its own code. -/
structure Ordered (s : Scheduler) : Prop where
  only_zero : ∀ cpu_id, cpu_id ≠ 0 → s.current_task cpu_id = none
  running : ∀ index, s.current_task 0 = some index → s.activity 0 ≠ .sleeping →
    s.activity 0 ≠ .runs .exited → s.state index = .RUNNING

/-- The CPUs are not touched. -/
structure SameCpus (s s' : Scheduler) : Prop where
  current : s'.current_task = s.current_task
  activity : s'.activity = s.activity

theorem SameCpus.refl (s : Scheduler) : SameCpus s s := ⟨rfl, rfl⟩

theorem SameCpus.trans {s s' s'' : Scheduler} (h : SameCpus s s') (h' : SameCpus s' s'') : SameCpus s s'' :=
  ⟨h'.current.trans h.current, h'.activity.trans h.activity⟩

theorem Ordered.cpu_zero {s : Scheduler} (h : Ordered s) {c : Cpu} {index : Index}
    (hc : s.current_task c = some index) : c = 0 := by
  by_contra hne
  rw [h.only_zero c hne] at hc
  cases hc

theorem Ordered.current_running {s : Scheduler} (h : Ordered s) {c : Cpu} {index : Index}
    (hc : s.current_task c = some index) (hcd : s.activity c = .runs .code) :
    s.state index = .RUNNING := by
  obtain rfl := h.cpu_zero hc
  refine h.running index hc ?_ ?_
  · simp [hcd]
  · rw [hcd]
    decide

/-! ## The tick -/

theorem tick_turn_wake (tick : UInt64) (s : Scheduler) (index i : Index) :
    ((tick_turn tick s index).tasks i).info.wake_tick = (s.tasks i).info.wake_tick := by
  unfold tick_turn
  dsimp only
  by_cases hr : (s.tasks index).info.state = .RUNNING
  · rw [if_pos hr, if_neg]
    · refine part_setTask s index TaskInfo.wake_tick ?_ i
      rfl
    · rw [state_setInfo, Function.update_self, hr]
      simp
  · rw [if_neg hr]
    split
    · refine part_setTask s index TaskInfo.wake_tick ?_ i
      rfl
    · rfl

theorem tick_turn_cpus (tick : UInt64) (s : Scheduler) (index : Index) :
    SameCpus s (tick_turn tick s index) := by
  unfold tick_turn
  dsimp only
  by_cases hr : (s.tasks index).info.state = .RUNNING
  · rw [if_pos hr]
    split <;> exact ⟨rfl, rfl⟩
  · rw [if_neg hr]
    split <;> exact ⟨rfl, rfl⟩

/-- What the tick has done so far: tasks are as they were, or they slept and are ready now. -/
structure Ticked (tick : UInt64) (s s' : Scheduler) : Prop where
  state : ∀ i, s'.state i = s.state i ∨
    (s.state i = .SLEEPING ∧ (s.tasks i).info.wake_tick ≤ tick ∧ s'.state i = .READY)
  wake : ∀ i, (s'.tasks i).info.wake_tick = (s.tasks i).info.wake_tick

theorem Ticked.turn {tick : UInt64} {s s' : Scheduler} (h : Ticked tick s s') (index : Index) :
    Ticked tick s (tick_turn tick s' index) := by
  refine ⟨fun i => ?_, fun i => (tick_turn_wake tick s' index i).trans (h.wake i)⟩
  rcases tick_turn_effect tick s' index with hk | ⟨hs, hw, hm⟩
  · rw [hk.state]
    exact h.state i
  · rw [hm.state]
    by_cases hi : i = index
    · subst hi
      rw [Function.update_self]
      rcases h.state i with hsm | ⟨_, _, hr⟩
      · exact Or.inr ⟨hsm ▸ hs, h.wake i ▸ hw, rfl⟩
      grind
    · rw [Function.update_of_ne hi]
      exact h.state i

theorem task_scheduler_tick_ticked (tick : UInt64) (s : Scheduler) :
    Ticked tick s (task_scheduler_tick s tick) := by
  have hl (indices : List Index) (s' : Scheduler) (h : Ticked tick s s') :
      Ticked tick s (indices.foldl (tick_turn tick) s') := by
    induction indices generalizing s' with
    | nil => exact h
    | cons index indices ih => exact ih _ (h.turn index)
  exact hl _ s ⟨fun _ => Or.inl rfl, fun _ => rfl⟩

/-! ## Legal changes -/

section
variable {s : Scheduler} {op : Op}

theorem legal_of_effect {b : TaskState} {o : Index → Prop}
    (h : Kept s (s.step op) ∨ ∃ i, o i ∧ Moved s (s.step op) i b)
    (ha : ∀ i, o i → Allowed op (s.tasks i).info b) : Legal s op := by
  rcases h with hk | ⟨i, hf, hm⟩
  · exact legal_of_same hk.state
  · exact legal_of_update hm.state (ha i hf)

theorem legal_yield {c : Cpu} (hst : ¬ Stuck s (.yield c)) : Legal s (.yield c) := by
  rcases hc : s.current_task c with _ | p
  · refine legal_of_same ?_
    show (task_yield s c).state = s.state
    unfold task_yield
    rw [hc]
  intro index
  show (task_yield s c).state index = _ ∨ Allowed _ _ ((task_yield s c).state index)
  have hb : (stepBack s p).state index = s.state index ∨
      (s.state index = .RUNNING ∧ index = p ∧ (stepBack s p).state index = .READY) := by
    rw [state_stepBack]
    grind
  rcases task_yield_cases hc hst with ⟨next, hne, hrd, hy⟩ | ⟨hrd, hy⟩
  · rw [hy, state_switchTo]
    by_cases hi : index = next
    · subst hi
      rw [Function.update_self]
      rcases hb with hs | ⟨_, heq, _⟩
      · exact Or.inr (Allowed.run (hs.symm.trans hrd))
      · exact absurd heq hne
    · rw [Function.update_of_ne hi]
      rcases hb with hs | ⟨hr, _, hsa⟩
      · exact Or.inl hs
      · rw [hsa]
        exact Or.inr (Allowed.stepBack hr)
  · rw [hy, state_goOn]
    by_cases hi : index = p
    · subst hi
      rw [Function.update_self]
      rcases hb with hs | ⟨hr, _, _⟩
      · exact Or.inr (Allowed.run (hs.symm.trans hrd))
      · exact Or.inl hr.symm
    grind

theorem Ordered.legal (h : Ordered s) (he : Enabled s op) (hst : ¬ Stuck s op) : Legal s op := by
  cases op with
  | create n e p a st =>
    exact legal_of_effect (task_create_kernel_effect s n e p a st) fun _ => Allowed.create
  | yield c => exact legal_yield hst
  | contextSwitch c => exact legal_of_same (task_context_switch_kept s c).state
  | sleep c w =>
    rcases hc : s.current_task c with _ | index
    · refine legal_of_same ?_
      show (task_sleep s c w).state = s.state
      unfold task_sleep
      rw [hc]
    · have hr := h.current_running hc he
      exact legal_of_update (task_sleep_moved w hc hr).state (Allowed.sleep hr)
  | exit c =>
    obtain ⟨hcd, index, _, hc⟩ := he
    have hr := h.current_running hc hcd
    exact legal_of_update (task_exit_moved hc hr).state (Allowed.exit hr)
  | wake pid => exact legal_of_effect (task_wake_effect s pid) fun _ => Allowed.wake
  | block pid => exact legal_of_effect (task_block_effect s pid) fun _ => Allowed.block
  | setAffinity pid a => exact legal_of_same (task_set_affinity_kept s pid a).state
  | tick tick =>
    intro i
    rcases (task_scheduler_tick_ticked tick s).state i with hsm | ⟨hs, hw, hrd⟩
    · exact Or.inl hsm
    · refine Or.inr ?_
      show Allowed _ _ ((task_scheduler_tick s tick).state i)
      rw [hrd]
      exact Allowed.tick hs hw
  | reap pid => exact legal_of_effect (task_reap_effect s pid) fun _ => Allowed.reap

theorem not_legal_of_stuck (hs : Stuck s op) : ¬ Legal s op := by
  cases op with
  | yield c =>
    obtain ⟨p, _, hr, hrd, hy⟩ := task_yield_of_stuck hs
    intro hl
    have hst : (s.step (.yield c)).state p = .RUNNING := by
      show (task_yield s c).state p = _
      rw [hy, state_goOn, Function.update_self]
    rcases hst ▸ hl p with hsm | ha
    · exact hr hsm.symm
    · cases ha with
      | run h => exact hrd h
  | _ => exact hs.elim

theorem Ordered.of_sameCpus {s' : Scheduler} (h : Ordered s) (hcp : SameCpus s s')
    (hr : ∀ i, s.state i = .RUNNING → s'.state i = .RUNNING) : Ordered s' := by
  refine ⟨fun c hne => ?_, fun index hc hs he => hr index ?_⟩
  · rw [hcp.current]
    exact h.only_zero c hne
  · rw [hcp.current] at hc
    rw [hcp.activity] at hs he
    exact h.running index hc hs he

end

/-! ## The CPUs -/

section
variable (s : Scheduler)

theorem task_create_kernel_cpus (n : Option (List Char)) (e : UInt64) (p : UInt8)
    (a st : UInt64) : SameCpus s (task_create_kernel s n e p a st).2.2 := by
  unfold task_create_kernel
  split
  · exact SameCpus.refl s
  split
  · exact SameCpus.refl s
  split
  · exact SameCpus.refl s
  split
  · exact SameCpus.refl s
  · exact ⟨rfl, rfl⟩

theorem task_wake_cpus (pid : UInt32) : SameCpus s (task_wake s pid).2 := by
  unfold task_wake
  split
  · exact SameCpus.refl s
  · split <;> exact ⟨rfl, rfl⟩

theorem task_block_cpus (pid : UInt32) : SameCpus s (task_block s pid).2 := by
  unfold task_block
  split
  · exact SameCpus.refl s
  · split <;> exact ⟨rfl, rfl⟩

theorem task_set_affinity_cpus (pid : UInt32) (a : UInt64) :
    SameCpus s (task_set_affinity s pid a).2 := by
  unfold task_set_affinity
  split
  · exact SameCpus.refl s
  · split <;> exact ⟨rfl, rfl⟩

theorem task_reap_cpus (pid : UInt32) : SameCpus s (task_reap s pid).2.2 := by
  unfold task_reap
  split
  · exact SameCpus.refl s
  · split <;> exact ⟨rfl, rfl⟩

theorem task_scheduler_tick_cpus (tick : UInt64) : SameCpus s (task_scheduler_tick s tick) := by
  have hl (indices : List Index) (s' : Scheduler) (h : SameCpus s s') :
      SameCpus s (indices.foldl (tick_turn tick) s') := by
    induction indices generalizing s' with
    | nil => exact h
    | cons index indices ih => exact ih _ (h.trans (tick_turn_cpus tick s' index))
  exact hl _ s (SameCpus.refl s)

end

section
variable {s : Scheduler} {op : Op}

def OfThread : Op → Prop
  | .yield _ | .sleep _ _ | .exit _ => True
  | _ => False

theorem Allowed.ofThread {info : TaskInfo} {state : TaskState} (h : Allowed op info state)
    (hrunning : info.state = .RUNNING) : OfThread op := by
  cases h with
  | stepBack | sleep | exit => trivial
  | wake h => simp [hrunning] at h
  | create h | run h | tick h | block h | reap h => simp [hrunning] at h

theorem running_of_legal (hl : Legal s op) (hop : ¬ OfThread op) (i : Index)
    (hi : s.state i = .RUNNING) : (s.step op).state i = .RUNNING := by
  rcases hl i with hs | ha
  · rw [hs, hi]
  · exact absurd (ha.ofThread hi) hop

theorem current_stepBack (p : Index) : SameCpus s (stepBack s p) := by
  unfold stepBack
  split
  · exact ⟨rfl, rfl⟩
  · exact SameCpus.refl s

theorem Ordered.yields (h : Ordered s) (c : Cpu) : task_yield s c = s ∨
    c = 0 ∧ ∃ previous, s.current_task 0 = some previous := by
  rcases hc : s.current_task c with _ | previous
  · left
    unfold task_yield
    rw [hc]
  · obtain rfl := h.cpu_zero hc
    exact Or.inr ⟨rfl, previous, hc⟩

theorem Ordered.yield (h : Ordered s) (c : Cpu) : Ordered (task_yield s c) := by
  rcases h.yields c with hs | ⟨rfl, p, hc⟩
  · rw [hs]
    exact h
  have hcp := current_stepBack (s := s) p
  rw [task_yield_some hc]
  dsimp only
  split
  · -- The same t goes on, and it runs.
    refine ⟨fun c hne => ?_, fun index hi _ _ => ?_⟩
    · show (stepBack s p).current_task c = none
      rw [hcp.current]
      exact h.only_zero c hne
    · have hi' : (stepBack s p).current_task 0 = some index := hi
      rw [hcp.current, hc] at hi'
      rw [state_goOn, Option.some.inj hi', Function.update_self]
  · -- The next t is cr now, and it runs.
    refine ⟨fun c hne => ?_, fun index hi _ _ => ?_⟩
    · show Function.update (stepBack s p).current_task 0 _ c = none
      rw [Function.update_of_ne hne, hcp.current]
      exact h.only_zero c hne
    · have hi' : Function.update (stepBack s p).current_task 0 _ 0 = some index := hi
      rw [Function.update_self] at hi'
      rw [state_switchTo, ← Option.some.inj hi', Function.update_self]

theorem Ordered.of_activity {s' : Scheduler} (h : Ordered s) {c : Cpu} {a : Activity}
    (hc : s'.current_task = s.current_task)
    (ha : s'.activity = Function.update s.activity c a)
    (hcp : a = .sleeping ∨ a = .runs .exited ∨
      (s.activity c ≠ .sleeping ∧ s.activity c ≠ .runs .exited))
    (hst : ∀ i, s.current_task c ≠ some i ∨ a ≠ .sleeping ∧ a ≠ .runs .exited →
      s.state i = .RUNNING → s'.state i = .RUNNING) : Ordered s' := by
  refine ⟨fun c hne => ?_, fun index hi hs he => ?_⟩
  · rw [hc]
    exact h.only_zero c hne
  rw [hc] at hi
  rw [ha] at hs he
  by_cases hz : c = 0
  · subst hz
    rw [Function.update_self] at hs he
    rcases hcp with hsl | hex | ⟨hsl, hex⟩
    · exact absurd hsl hs
    · exact absurd hex he
    · exact hst index (Or.inr ⟨hs, he⟩) (h.running index hi hsl hex)
  · rw [Function.update_of_ne (Ne.symm hz)] at hs he
    refine hst index (Or.inl ?_) (h.running index hi hs he)
    rw [h.only_zero c hz]
    simp

theorem Ordered.contextSwitch (h : Ordered s) (c : Cpu) : Ordered (task_context_switch s c) := by
  have hs := (task_context_switch_kept s c).state
  unfold task_context_switch at hs ⊢
  split
  next thread p next ha =>
    rw [ha] at hs
    refine h.of_activity rfl rfl (Or.inr (Or.inr ?_)) fun i _ hi => ?_
    · simp [ha]
    · rw [hs, hi]
  next => exact h

theorem Ordered.sleep (h : Ordered s) (c : Cpu) (w : UInt64) :
    Ordered (task_sleep s c w) := by
  unfold task_sleep
  split
  · exact h
  next index hin =>
    refine h.of_activity rfl rfl (Or.inl rfl) fun i hi hr => ?_
    have hne : i ≠ index := by grind
    show (s.setInfo index _).state i = .RUNNING
    rw [state_setInfo, Function.update_of_ne hne, hr]

theorem Ordered.exit (h : Ordered s) (c : Cpu) : Ordered (task_exit s c) := by
  unfold task_exit
  split
  · exact h
  next index hin =>
    refine h.of_activity rfl rfl (Or.inr (Or.inl rfl)) fun i hi hr => ?_
    have hne : i ≠ index := by grind
    show (s.setState index _).state i = .RUNNING
    rw [state_setState, Function.update_of_ne hne, hr]

theorem Ordered.step (h : Ordered s) (he : Enabled s op) : Ordered (s.step op) := by
  cases op with
  | yield c => exact h.yield c
  | contextSwitch c => exact h.contextSwitch c
  | sleep c w => exact h.sleep c w
  | exit c => exact h.exit c
  | create n e p a st =>
    exact h.of_sameCpus (task_create_kernel_cpus s n e p a st)
      (running_of_legal (h.legal he False.elim) False.elim)
  | wake pid =>
    exact h.of_sameCpus (task_wake_cpus s pid)
      (running_of_legal (h.legal he False.elim) False.elim)
  | block pid =>
    exact h.of_sameCpus (task_block_cpus s pid)
      (running_of_legal (h.legal he False.elim) False.elim)
  | setAffinity pid a =>
    exact h.of_sameCpus (task_set_affinity_cpus s pid a)
      (running_of_legal (h.legal he False.elim) False.elim)
  | tick tick =>
    exact h.of_sameCpus (task_scheduler_tick_cpus s tick)
      (running_of_legal (h.legal he False.elim) False.elim)
  | reap pid =>
    exact h.of_sameCpus (task_reap_cpus s pid)
      (running_of_legal (h.legal he False.elim) False.elim)

theorem task_init_ordered (tick : UInt64) : Ordered (task_init tick) := by
  refine ⟨fun c hne => ?_, fun index hi _ _ => ?_⟩
  · show Function.update (fun _ => none) 0 (some 0) c = none
    rw [Function.update_of_ne hne]
  · have hz : Function.update (fun _ => none) (0 : Cpu) (some 0) 0 = some index := hi
    rw [Function.update_self] at hz
    rw [← Option.some.inj hz]
    rfl

/-! ## Lifecycles -/

def AlwaysLegal (s : Scheduler) : List Op → Prop
  | [] => True
  | op :: ops => Legal s op ∧ AlwaysLegal (s.step op) ops

def NeverStuck (s : Scheduler) : List Op → Prop
  | [] => True
  | op :: ops => ¬ Stuck s op ∧ NeverStuck (s.step op) ops

instance decidableNeverStuck (s : Scheduler) (ops : List Op) : Decidable (NeverStuck s ops) :=
  match ops with
  | [] => .isTrue trivial
  | op :: ops => @instDecidableAnd _ _ _ (decidableNeverStuck (s.step op) ops)

theorem Ordered.alwaysLegal_iff (h : Ordered s) {ops : List Op} (ho : InOrder s ops) :
    AlwaysLegal s ops ↔ NeverStuck s ops := by
  induction ops generalizing s with
  | nil => exact Iff.rfl
  | cons op ops ih =>
    have hr := ih (h.step ho.1) ho.2
    constructor
    · rintro ⟨hlg, hl⟩
      exact ⟨fun hs => not_legal_of_stuck hs hlg, hr.mp hl⟩
    · rintro ⟨hs, hst⟩
      exact ⟨h.legal ho.1 hs, hr.mpr hst⟩

end

/-- Every change of state in a run is an allowed one exactly when no task is stuck in
a yield. So a zombie only leaves by being reaped, and a sleeping task only by being
woken or when its time has come. -/
theorem every_change_of_state_is_allowed_iff (tick : UInt64) (ops : List Op)
    (horder : InOrder (task_init tick) ops) :
    AlwaysLegal (task_init tick) ops ↔ NeverStuck (task_init tick) ops :=
  (task_init_ordered tick).alwaysLegal_iff horder

/-- A thread that is created, runs, exits and is reaped while the shell waits. -/
def oneThread : List Op :=
  [.create (some ['t']) 1 10 1 4096, .yield 0, .contextSwitch 0, .exit 0, .yield 0, .contextSwitch 0, .reap 2]

theorem one_thread_changes_states_as_allowed :
    InOrder (task_init 0) oneThread ∧ NeverStuck (task_init 0) oneThread ∧
      AlwaysLegal (task_init 0) oneThread := by
  have horder : InOrder (task_init 0) oneThread := by decide +kernel
  have hstuck : NeverStuck (task_init 0) oneThread := by decide +kernel
  exact ⟨horder, hstuck, (every_change_of_state_is_allowed_iff 0 oneThread horder).mpr hstuck⟩

/-- The shell sleeps while a thread exits: the thread is a zombie, nobody else can
run, and its yield makes it run again. -/
theorem a_zombie_runs_again :
    let ops : List Op :=
      [.create (some ['t']) 1 10 1 4096, .sleep 0 100, .yield 0, .contextSwitch 0, .exit 0]
    InOrder (task_init 0) (ops ++ [.yield 0]) ∧ ((task_init 0).run ops).state 1 = .ZOMBIE ∧
      ((task_init 0).run (ops ++ [.yield 0])).state 1 = .RUNNING ∧
      ¬ AlwaysLegal (task_init 0) (ops ++ [.yield 0]) := by
  intro ops
  have horder : InOrder (task_init 0) (ops ++ [.yield 0]) := by decide +kernel
  refine ⟨horder, by decide +kernel, by decide +kernel, ?_⟩
  rw [(task_init_ordered 0).alwaysLegal_iff horder]
  decide +kernel

end mvh.task
