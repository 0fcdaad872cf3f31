-- Whom `task_reap` may take.
import MvhKernel.Runs
import MvhKernel.TaskLaws

namespace mvh.task

/-- A reap leaves the control block of every current task as it is, and frees the stack of
another task, if any. -/
def Spares (s : Scheduler) : Op → Prop
  | .reap pid => ∀ cpu_id index, s.current_task cpu_id = some index →
      (task_reap s pid).2.2.tasks index = s.tasks index ∧
      ((task_reap s pid).2.1 ≠ none → index_by_pid s pid ≠ some index)
  | _ => True

/-- Nobody reaps a thread while it is in the loop at the end of `task_bootstrap` and no other
thread was switched to yet. -/
def LeavesFirst (s : Scheduler) : Op → Prop
  | .reap pid => ∀ cpu_id index, s.current_task cpu_id = some index →
      s.activity cpu_id = .runs .exited → (s.tasks index).info.pid ≠ pid
  | _ => True

instance (s : Scheduler) (op : Op) : Decidable (LeavesFirst s op) :=
  match op with
  | .reap _ => inferInstanceAs (Decidable (∀ _, _))
  | .create .. | .yield _ | .contextSwitch _ | .sleep _ _ | .exit _ | .wake _ | .block _
  | .setAffinity _ _ | .tick _ => .isTrue trivial

/-! ## Which current task is a zombie -/

/-- The current task is a zombie only when its thread has exited. -/
structure Tidy (s : Scheduler) : Prop where
  ordered : Ordered s
  asleep : s.activity 0 = .sleeping → ∀ index, s.current_task 0 = some index →
    s.state index ≠ .ZOMBIE

section
variable {s : Scheduler} {op : Op}

theorem Tidy.not_zombie (h : Tidy s) {c : Cpu} {index : Index}
    (hc : s.current_task c = some index) (he : s.activity c ≠ .runs .exited) :
    s.state index ≠ .ZOMBIE := by
  obtain rfl := h.ordered.cpu_zero hc
  by_cases ha : s.activity 0 = .sleeping
  · exact h.asleep ha index hc
  · rw [h.ordered.running index hc ha he]
    decide

theorem zombie_of_legal (hl : Legal s op) (hop : ∀ c, op ≠ .exit c) {index : Index}
    (h : s.state index ≠ .ZOMBIE) : (s.step op).state index ≠ .ZOMBIE := by
  intro hz
  rcases hl index with hs | ha
  · exact h (hs.symm.trans hz)
  · rw [hz] at ha
    cases ha with
    | exit => exact hop _ rfl

theorem Tidy.of_sameCpus (h : Tidy s) (he : Enabled s op) (hcp : SameCpus s (s.step op))
    (ht : ¬ OfThread op) : Tidy (s.step op) := by
  have hs : ¬ Stuck s op := by
    cases op with
    | yield c => exact absurd trivial ht
    | _ => exact not_false
  have hl := h.ordered.legal he hs
  refine ⟨h.ordered.step he, fun ha index hc => ?_⟩
  rw [hcp.activity] at ha
  rw [hcp.current] at hc
  refine zombie_of_legal hl (fun c hop => ?_) (h.asleep ha index hc)
  rw [hop] at ht
  exact ht trivial

theorem tidy_of_awake (h : Ordered s) (haw : s.activity 0 ≠ .sleeping) : Tidy s :=
  ⟨h, fun ha => absurd ha haw⟩

theorem Tidy.yield (h : Tidy s) (c : Cpu) : Tidy (task_yield s c) := by
  have ho := h.ordered.yield c
  rcases hc : s.current_task c with _ | p
  · grind [task_yield]
  obtain rfl := h.ordered.cpu_zero hc
  refine tidy_of_awake ho ?_
  rw [task_yield_some hc]
  dsimp only
  split
  · simp [goOn, Scheduler.setActivity]
  · simp [switchTo, Scheduler.setActivity]

theorem Tidy.contextSwitch (h : Tidy s) (c : Cpu) : Tidy (task_context_switch s c) := by
  refine ⟨h.ordered.contextSwitch c, fun ha index hc => ?_⟩
  rw [(task_context_switch_kept s c).state]
  unfold task_context_switch at ha hc
  split at ha
  next thread p next hac =>
    rw [hac] at hc
    by_cases hz : c = 0
    · subst hz
      simp [Scheduler.setActivity] at ha
    · refine h.asleep ?_ index hc
      simpa [Scheduler.setActivity, Scheduler.setTask, Ne.symm hz] using ha
  next ho =>
    refine h.asleep ha index ?_
    grind

theorem Tidy.sleep (h : Tidy s) (c : Cpu) (w : UInt64) :
    Tidy (task_sleep s c w) := by
  refine ⟨h.ordered.sleep c w, fun ha index hc => ?_⟩
  rcases ho : s.current_task c with _ | own
  · unfold task_sleep at ha hc ⊢
    rw [ho] at ha hc ⊢
    exact h.asleep ha index hc
  · obtain rfl := h.ordered.cpu_zero ho
    unfold task_sleep at hc ⊢
    rw [ho] at hc ⊢
    have hs : s.current_task 0 = some index := hc
    rw [ho] at hs
    show (s.setInfo own _).state index ≠ .ZOMBIE
    rw [state_setInfo, Option.some.inj hs, Function.update_self]
    simp

theorem Tidy.exit (h : Tidy s) {c : Cpu} {index : Index}
    (hc : s.current_task c = some index) : Tidy (task_exit s c) := by
  obtain rfl := h.ordered.cpu_zero hc
  refine tidy_of_awake (h.ordered.exit 0) ?_
  unfold task_exit
  rw [hc]
  simp [Scheduler.setActivity]

theorem Tidy.step (h : Tidy s) (op : Op) (he : Enabled s op) : Tidy (s.step op) := by
  cases op with
  | yield c => exact h.yield c
  | contextSwitch c => exact h.contextSwitch c
  | sleep c w => exact h.sleep c w
  | exit c =>
    obtain ⟨-, index, -, hc⟩ := he
    exact h.exit hc
  | create n e p a st =>
    exact h.of_sameCpus he (task_create_kernel_cpus s n e p a st) id
  | wake pid => exact h.of_sameCpus he (task_wake_cpus s pid) id
  | block pid => exact h.of_sameCpus he (task_block_cpus s pid) id
  | setAffinity pid a => exact h.of_sameCpus he (task_set_affinity_cpus s pid a) id
  | tick tick => exact h.of_sameCpus he (task_scheduler_tick_cpus s tick) id
  | reap pid => exact h.of_sameCpus he (task_reap_cpus s pid) id

/-! ## Reaps -/

theorem index_by_pid_pid {pid : UInt32} {index : Index} (h : index_by_pid s pid = some index) :
    (s.tasks index).info.pid = pid := by
  have hf := List.find?_some h
  grind

theorem Tidy.spares (h : Tidy s) (op : Op) (hl : LeavesFirst s op) : Spares s op := by
  cases op with
  | reap pid =>
    intro c index hc
    -- a current task with this pid has not exited, so it is not a zombie and the call fails
    have ho : index_by_pid s pid = some index → s.state index ≠ .ZOMBIE := fun hf =>
      h.not_zombie hc fun he => hl c index hc he (index_by_pid_pid hf)
    unfold task_reap
    rcases hf : index_by_pid s pid with _ | f
    · exact ⟨rfl, nofun⟩
    · dsimp only
      split
      · exact ⟨rfl, fun hn => absurd rfl hn⟩
      · rename_i hz
        have hne : f ≠ index := by grind
        refine ⟨?_, fun _ heq => hne (Option.some.inj heq)⟩
        show Function.update s.tasks f cleared index = s.tasks index
        exact Function.update_of_ne hne.symm ..
  | _ => trivial

theorem each_enabled {ops : List Op} (h : InOrder s ops) : runs.Each Scheduler.step Enabled s ops := by
  induction ops generalizing s with
  | nil => trivial
  | cons op ops ih => exact ⟨h.1, ih h.2⟩

end

/-- In every run in which no thread is reaped before another one was switched to, every reap
spares the current task. -/
theorem a_running_task_is_spared (tick : UInt64) (ops : List Op)
    (horder : InOrder (task_init tick) ops)
    (hleaves : runs.Each Scheduler.step LeavesFirst (task_init tick) ops) :
    runs.Each Scheduler.step Spares (task_init tick) ops := by
  have hstart : Tidy (task_init tick) := ⟨task_init_ordered tick, nofun⟩
  exact runs.each_of_each (fun s op hs hop => hs.step op hop.1)
    (fun s op hs hop => hs.spares op hop.2) hstart ((each_enabled horder).and hleaves)

/-- The thread of `oneThread` is reaped after the shell runs again. -/
theorem the_shell_reaps_a_thread_that_has_left :
    runs.Each Scheduler.step Spares (task_init 0) oneThread :=
  a_running_task_is_spared 0 oneThread (by decide +kernel) (by
    unfold oneThread
    exact ⟨trivial, trivial, trivial, trivial, trivial, trivial, by decide +kernel, trivial⟩)

/-- A thread up to its exit section, while it is still the current task of CPU 0. -/
def threadUntilExit : List Op :=
  [Op.create (some ['t']) 1 10 1 4096, Op.yield 0, Op.contextSwitch 0, Op.exit 0]

/-- A reap from another CPU right after the exit section takes the running thread. -/
theorem a_running_thread_is_reaped :
    InOrder (task_init 0) (threadUntilExit ++ [Op.reap 2]) ∧
      ¬ runs.Each Scheduler.step Spares (task_init 0) (threadUntilExit ++ [Op.reap 2]) := by
  refine ⟨by decide +kernel, fun h => ?_⟩
  have hcurrent : (runs.run Scheduler.step (task_init 0) threadUntilExit).current_task 0 = some 1 := by
    decide +kernel
  have hfreed : (task_reap (runs.run Scheduler.step (task_init 0) threadUntilExit) 2).2.1 ≠ none := by
    decide +kernel
  exact (h.last 0 1 hcurrent).2 hfreed (by decide +kernel)

end mvh.task
