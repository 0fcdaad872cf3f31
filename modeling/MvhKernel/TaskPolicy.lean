-- The policy of the scheduler: which task runs after a yield.
import MvhKernel.RoundRobin
import MvhKernel.TaskLaws

open round_robin

namespace mvh.task

/-! ## The choice -/

def priorityOf (s : Scheduler) (index : Index) : Nat := (s.tasks index).info.priority.toNat

section
variable {s : Scheduler} {cpu_id : Cpu} {previous : Index}

theorem choose_next_turn_first {b : Index × UInt8} (hb : b.1 = previous) {index : Index}
    (hi : Runnable s cpu_id index) :
    choose_next_turn s cpu_id previous b index = (index, (s.tasks index).info.priority) :=
  if_pos ⟨hi.1, hi.2, Or.inl hb⟩

theorem choose_next_turn_best {b : Index × UInt8} {indices : List Index}
    (h : IsFirstBest (Runnable s cpu_id) (priorityOf s) indices b.1)
    (hp : b.2 = (s.tasks b.1).info.priority) (hne : b.1 ≠ previous) (index : Index) :
    let next := choose_next_turn s cpu_id previous b index
    IsFirstBest (Runnable s cpu_id) (priorityOf s) (indices ++ [index]) next.1 ∧
      next.2 = (s.tasks next.1).info.priority := by
  unfold choose_next_turn
  dsimp only
  split
  next ht =>
    obtain ⟨hr, ha, hb⟩ := ht
    have hlt := hb.resolve_left hne
    rw [hp] at hlt
    exact ⟨h.replace ⟨hr, ha⟩ (UInt8.lt_iff_toNat_lt.mp hlt), rfl⟩
  next hk =>
    refine ⟨h.keep fun hi => ?_, hp⟩
    by_contra hlt
    refine hk ⟨hi.1, hi.2, Or.inr ?_⟩
    rw [hp]
    exact UInt8.lt_iff_toNat_lt.mpr (not_le.mp hlt)

theorem choose_next_loop {indices : List Index} (ho : previous ∉ indices) :
    let best := indices.foldl (choose_next_turn s cpu_id previous) (previous, 0)
    ((∀ index ∈ indices, ¬ Runnable s cpu_id index) ∧ best.1 = previous) ∨
      (IsFirstBest (Runnable s cpu_id) (priorityOf s) indices best.1 ∧
        best.2 = (s.tasks best.1).info.priority) := by
  induction indices using List.reverseRecOn with
  | nil => exact Or.inl ⟨nofun, rfl⟩
  | append_singleton indices index ih =>
    have hp := ih fun hm => ho (List.mem_append_left _ hm)
    rw [List.foldl_append]
    generalize indices.foldl (choose_next_turn s cpu_id previous) (previous, 0) = best at hp
    rcases hp with ⟨hn, hb⟩ | ⟨hb, hpr⟩
    · by_cases hi : Runnable s cpu_id index
      · have ht := choose_next_turn_first hb hi
        refine Or.inr ?_
        rw [List.foldl_cons, List.foldl_nil, ht]
        exact ⟨IsFirstBest.alone hn hi, rfl⟩
      · have hk := (@choose_next_turn_cases s cpu_id previous best index).resolve_right
          fun ht => hi ht.1
        grind
    · have hne : best.1 ≠ previous := fun heq => ho (List.mem_append_left _ (heq ▸ hb.mem))
      exact Or.inr (choose_next_turn_best hb hpr hne index)

theorem choose_next_best (hc : s.round_robin_cursor cpu_id = previous)
    (hs : ∃ index, Runnable s cpu_id index) :
    IsFirstBest (Runnable s cpu_id) (priorityOf s) (around previous)
      (choose_next s cpu_id previous) := by
  obtain ⟨o, ha, ho⟩ := around_last previous
  have hor : cyclicFrom (s.round_robin_cursor cpu_id) = o ++ [previous] := by
    rw [hc]
    exact ha
  have hl := @choose_next_loop s cpu_id previous o ho
  unfold choose_next
  rw [ha, hor, List.foldl_append, List.foldl_cons, List.foldl_nil]
  generalize o.foldl (choose_next_turn s cpu_id previous) (previous, 0) = best at hl
  rcases hl with ⟨hn, hb⟩ | ⟨hb, hpr⟩
  · have hp : Runnable s cpu_id previous := by
      obtain ⟨index, hi⟩ := hs
      have hm := mem_around previous index
      rw [ha] at hm
      rcases List.mem_append.mp hm with hm | hm
      · exact absurd hi (hn index hm)
      · exact List.mem_singleton.mp hm ▸ hi
    rw [choose_next_turn_first hb hp]
    exact IsFirstBest.alone hn hp
  · have hne : best.1 ≠ previous := fun heq => ho (heq ▸ hb.mem)
    exact (choose_next_turn_best hb hpr hne previous).1

theorem choose_next_eq (hc : s.round_robin_cursor cpu_id = previous) {next : Index}
    (hn : Runnable s cpu_id next)
    (ho : ∀ index, Runnable s cpu_id index → index ≠ next → priorityOf s index < priorityOf s next) :
    choose_next s cpu_id previous = next := by
  have hb := choose_next_best hc ⟨next, hn⟩
  by_contra hne
  exact absurd (hb.rank_le (mem_around previous next) hn)
    (not_le.mpr (ho _ hb.can_best hne))

end

/-! ## The cursor -/

/-- The cursor of a CPU is at its current task, and no other task runs. -/
structure Aimed (s : Scheduler) : Prop where
  cursor : ∀ cpu_id index, s.current_task cpu_id = some index → s.round_robin_cursor cpu_id = index
  running : ∀ index, s.state index = .RUNNING → s.current_task 0 = some index

/-- Neither the current tasks nor the cursors are touched. -/
structure SameTurns (s s' : Scheduler) : Prop where
  current : s'.current_task = s.current_task
  cursor : s'.round_robin_cursor = s.round_robin_cursor

theorem SameTurns.refl (s : Scheduler) : SameTurns s s := ⟨rfl, rfl⟩

section
variable {s : Scheduler}

theorem tick_turns (tick : UInt64) (s : Scheduler) : SameTurns s (task_scheduler_tick s tick) := by
  have ht (s' : Scheduler) (index : Index) : SameTurns s' (tick_turn tick s' index) := by
    unfold tick_turn
    dsimp only
    by_cases hr : (s'.tasks index).info.state = .RUNNING
    · rw [if_pos hr]
      split <;> exact ⟨rfl, rfl⟩
    · rw [if_neg hr]
      split <;> exact ⟨rfl, rfl⟩
  have hl (indices : List Index) (s' : Scheduler) (h : SameTurns s s') :
      SameTurns s (indices.foldl (tick_turn tick) s') := by
    induction indices generalizing s' with
    | nil => exact h
    | cons index indices ih =>
      have hn := ht s' index
      exact ih _ ⟨hn.current.trans h.current, hn.cursor.trans h.cursor⟩
  exact hl _ s (SameTurns.refl s)

theorem step_turns {op : Op} (hop : ∀ cpu_id, op ≠ .yield cpu_id) : SameTurns s (s.step op) := by
  cases op with
  | yield cpu_id => exact absurd rfl (hop cpu_id)
  | create n e p a st =>
    show SameTurns s (task_create_kernel s n e p a st).2.2
    unfold task_create_kernel
    repeat' split
    all_goals exact ⟨rfl, rfl⟩
  | contextSwitch cpu_id =>
    show SameTurns s (task_context_switch s cpu_id)
    unfold task_context_switch
    split <;> exact ⟨rfl, rfl⟩
  | sleep cpu_id w =>
    show SameTurns s (task_sleep s cpu_id w)
    unfold task_sleep
    split <;> exact ⟨rfl, rfl⟩
  | exit cpu_id =>
    show SameTurns s (task_exit s cpu_id)
    unfold task_exit
    split <;> exact ⟨rfl, rfl⟩
  | wake pid =>
    show SameTurns s (task_wake s pid).2
    unfold task_wake
    repeat' split
    all_goals exact ⟨rfl, rfl⟩
  | block pid =>
    show SameTurns s (task_block s pid).2
    unfold task_block
    repeat' split
    all_goals exact ⟨rfl, rfl⟩
  | setAffinity pid a =>
    show SameTurns s (task_set_affinity s pid a).2
    unfold task_set_affinity
    repeat' split
    all_goals exact ⟨rfl, rfl⟩
  | tick tick => exact tick_turns tick s
  | reap pid =>
    show SameTurns s (task_reap s pid).2.2
    unfold task_reap
    repeat' split
    all_goals exact ⟨rfl, rfl⟩

end

/-! ## A yield -/

section
variable {s : Scheduler} {cpu_id : Cpu} {previous : Index}

theorem stepBack_turns (s : Scheduler) (previous : Index) : SameTurns s (stepBack s previous) := by
  unfold stepBack
  split <;> exact ⟨rfl, rfl⟩

theorem task_yield_next (hc : s.current_task cpu_id = some previous) :
    let next := choose_next (stepBack s previous) cpu_id previous
    (task_yield s cpu_id).current_task = Function.update s.current_task cpu_id (some next) ∧
      (task_yield s cpu_id).state = Function.update (stepBack s previous).state next .RUNNING := by
  have hb := stepBack_turns s previous
  rw [task_yield_some hc]
  dsimp only
  generalize choose_next (stepBack s previous) cpu_id previous = next
  by_cases hn : next = previous
  · rw [if_pos hn, hn]
    refine ⟨?_, state_goOn⟩
    rw [← hc, Function.update_eq_self]
    exact hb.current
  · rw [if_neg hn]
    refine ⟨?_, state_switchTo⟩
    rw [← hb.current]
    rfl

theorem task_yield_cursor (hcr : s.current_task cpu_id = some previous)
    (hc : s.round_robin_cursor cpu_id = previous) :
    (task_yield s cpu_id).round_robin_cursor = Function.update s.round_robin_cursor cpu_id
      (choose_next (stepBack s previous) cpu_id previous) := by
  have hb := stepBack_turns s previous
  rw [task_yield_some hcr]
  dsimp only
  generalize choose_next (stepBack s previous) cpu_id previous = next
  by_cases hn : next = previous
  · rw [if_pos hn, hn, ← hc, Function.update_eq_self]
    exact hc ▸ hb.cursor
  · rw [if_neg hn, ← hb.cursor]
    rfl

theorem switch_eq {next : Index} (hc : s.current_task 0 = some previous)
    (hch : choose_next (stepBack s previous) 0 previous = next) (hne : next ≠ previous) :
    let t := stepBack s previous
    let s' := s.run [.yield 0, .contextSwitch 0]
    ((task_yield s 0).activity 0).isSwitching = true ∧
    (s'.current_task 0 = some next ∧ s'.round_robin_cursor 0 = next ∧
      s'.activity 0 = .runs (t.tasks next).context ∧ s'.next_pid = t.next_pid) ∧
    s'.tasks previous = { t.tasks previous with context := (t.activity 0).thread } ∧
    (s'.tasks next).info = { (t.tasks next).info with
      state := .RUNNING, cpu_id := 0, context_switches := (t.tasks next).info.context_switches + 1 } ∧
    (s'.tasks next).context = (t.tasks next).context ∧
    ∀ index, index ≠ previous → index ≠ next → s'.tasks index = t.tasks index := by
  intro t s'
  have hy : task_yield s 0 = switchTo t 0 previous next := by grind [task_yield_some]
  have hs' : s' = task_context_switch (switchTo t 0 previous next) 0 := by
    show task_context_switch (task_yield s 0) 0 = _
    rw [hy]
  have ha : (switchTo t 0 previous next).activity 0 =
      .switching (t.activity 0).thread previous next := by
    simp [switchTo, Scheduler.setActivity, Scheduler.setInfo, Scheduler.setStats, Scheduler.setTask]
  unfold task_context_switch at hs'
  rw [ha] at hs'
  rw [hs']
  refine ⟨by rw [hy, ha]; rfl, ⟨?_, ?_, ?_, ?_⟩, ?_, ?_, ?_, fun index hp hn => ?_⟩
  case refine_8 =>
    show Function.update (Function.update t.tasks next _) previous _ index = t.tasks index
    grind
  all_goals
    simp [switchTo, Scheduler.setActivity, Scheduler.setTask, Scheduler.setInfo, Scheduler.setStats,
      hne, hne.symm]

theorem Aimed.stepBack (h : Aimed s) (hc : s.current_task 0 = some previous) (index : Index) :
    (stepBack s previous).state index ≠ .RUNNING := by
  have ho (hne : index ≠ previous) : s.state index ≠ .RUNNING := by
    intro hr
    exact hne (Option.some.inj ((h.running index hr).symm.trans hc))
  rw [state_stepBack]
  split
  next => grind
  grind

theorem Aimed.yield (h : Aimed s) (ho : Ordered s) (cpu_id : Cpu) :
    Aimed (task_yield s cpu_id) := by
  rcases ho.yields cpu_id with hsm | ⟨rfl, previous, hc⟩
  · rw [hsm]
    exact h
  obtain ⟨hn, hs⟩ := task_yield_next hc
  have hcr := task_yield_cursor hc (h.cursor 0 previous hc)
  refine ⟨fun cpu_id index hi => ?_, fun index hr => ?_⟩
  · rw [hn] at hi
    rw [hcr]
    by_cases hz : cpu_id = 0
    · grind
    · rw [Function.update_of_ne hz] at hi ⊢
      exact h.cursor cpu_id index hi
  · rw [hs] at hr
    rw [hn, Function.update_self]
    by_contra hne
    rw [Function.update_of_ne fun heq => hne (congrArg some heq.symm)] at hr
    exact h.stepBack hc index hr

theorem Aimed.of_turns {s' : Scheduler} (h : Aimed s) (ht : SameTurns s s')
    (hr : ∀ index, s'.state index = .RUNNING → s.state index = .RUNNING) : Aimed s' := by
  refine ⟨fun cpu_id index hi => ?_, fun index hi => ?_⟩
  · rw [ht.cursor]
    exact h.cursor cpu_id index (ht.current ▸ hi)
  · rw [ht.current]
    exact h.running index (hr index hi)

theorem Aimed.step (h : Aimed s) (ho : Ordered s) {op : Op} (he : Enabled s op) :
    Aimed (s.step op) := by
  by_cases hop : ∃ cpu_id, op = .yield cpu_id
  · obtain ⟨cpu_id, rfl⟩ := hop
    exact h.yield ho cpu_id
  rw [not_exists] at hop
  have hs : ¬ Stuck s op := by
    cases op with
    | yield cpu_id => exact absurd rfl (hop cpu_id)
    | _ => exact not_false
  refine h.of_turns (step_turns hop) fun index hr => ?_
  -- No step but a yield makes a task run.
  rcases ho.legal he hs index with hsm | ha
  · rw [← hsm, hr]
  · rw [hr] at ha
    cases ha with
    | run => exact absurd rfl (hop _)

theorem task_init_aimed (tick : UInt64) : Aimed (task_init tick) := by
  refine ⟨fun cpu_id index hi => ?_, fun index hr => ?_⟩
  · by_cases hz : cpu_id = 0
    · subst hz
      exact Option.some.inj hi
    · rw [(task_init_ordered tick).only_zero cpu_id hz] at hi
      cases hi
  · by_cases hz : index = 0
    · rw [hz]
      rfl
    · have hu : (task_init tick).state index = .UNUSED := by
        unfold Scheduler.state task_init
        dsimp only
        rw [Function.update_of_ne hz]
        rfl
      grind

theorem reached_aimed (tick : UInt64) {ops : List Op} (ho : InOrder (task_init tick) ops) :
    Ordered ((task_init tick).run ops) ∧ Aimed ((task_init tick).run ops) := by
  have hr (ops : List Op) (s : Scheduler) (hor : Ordered s) (h : Aimed s)
      (ho : InOrder s ops) : Ordered (s.run ops) ∧ Aimed (s.run ops) := by
    induction ops generalizing s with
    | nil => exact ⟨hor, h⟩
    | cons op ops ih => exact ih _ (hor.step ho.1) (h.step hor ho.1) ho.2
  exact hr ops _ (task_init_ordered tick) (task_init_aimed tick) ho

/-- What the task that runs next should be, in the state after the caller has stepped back. -/
structure RunsNext (s : Scheduler) (cpu_id : Cpu) (previous next : Index) : Prop where
  ready : s.state next = .READY
  affine : affine (s.tasks next).info.affinity cpu_id = true
  best : ∀ index, Runnable s cpu_id index →
    (s.tasks index).info.priority ≤ (s.tasks next).info.priority
  first : ∀ index, Runnable s cpu_id index →
    (s.tasks index).info.priority = (s.tasks next).info.priority →
    ahead previous next ≤ ahead previous index

theorem runsNext_of_best {next : Index}
    (h : IsFirstBest (Runnable s cpu_id) (priorityOf s) (around previous) next) :
    RunsNext s cpu_id previous next where
  ready := h.can_best.1
  affine := h.can_best.2
  best index hindex := UInt8.le_iff_toNat_le.mpr (h.rank_le (mem_around previous index) hindex)
  first _ hindex heq := h.ahead_le hindex (congrArg UInt8.toNat heq).ge

/-- In every run, the task that runs after a yield is the first of the best. -/
theorem the_first_of_the_best_runs_next (tick : UInt64) (ops : List Op)
    (horder : InOrder (task_init tick) ops) (cpu_id : Cpu) (previous : Index)
    (hcurrent : ((task_init tick).run ops).current_task cpu_id = some previous)
    (hsome : ∃ index, Runnable (stepBack ((task_init tick).run ops) previous) cpu_id index) :
    let s := (task_init tick).run ops
    ∃ next, (task_yield s cpu_id).current_task cpu_id = some next ∧
      (task_yield s cpu_id).state next = .RUNNING ∧
      RunsNext (stepBack s previous) cpu_id previous next := by
  intro s
  have haimed := (reached_aimed tick horder).2
  have hcursor : (stepBack s previous).round_robin_cursor cpu_id = previous := by
    rw [(stepBack_turns s previous).cursor]
    exact haimed.cursor cpu_id previous hcurrent
  obtain ⟨hnext, hstate⟩ := task_yield_next hcurrent
  refine ⟨_, ?_, ?_, runsNext_of_best (choose_next_best hcursor hsome)⟩
  · rw [hnext, Function.update_self]
  · rw [hstate, Function.update_self]

/-- The shell with two threads, the second of the higher priority. -/
def twoThreads : List Op :=
  [.create (some ['a']) 1 10 1 4096, .create (some ['b']) 1 20 1 8192]

theorem the_better_thread_runs_next :
    let s := (task_init 0).run twoThreads
    ∃ next, (task_yield s 0).current_task 0 = some next ∧ (task_yield s 0).state next = .RUNNING ∧
      RunsNext (stepBack s 0) 0 0 next :=
  the_first_of_the_best_runs_next 0 twoThreads (by decide) 0 0 (by decide) ⟨2, by decide +kernel⟩

end

end mvh.task
