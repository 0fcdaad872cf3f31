-- Tasks that only yield.
import MvhKernel.TaskPolicy

open round_robin

namespace mvh.task

/-- A whole call of `task_yield` on CPU 0, with the context switch. -/
def yieldOn (s : Scheduler) : Scheduler := task_context_switch (task_yield s 0) 0

def CanRun (s : Scheduler) (index : Index) : Prop :=
  (s.state index = .RUNNING ∨ s.state index = .READY) ∧
    affine (s.tasks index).info.affinity 0 = true

instance (s : Scheduler) (index : Index) : Decidable (CanRun s index) :=
  inferInstanceAs (Decidable (_ ∧ _))

/-! ## What a yield leaves alone -/

def rights (s : Scheduler) (index : Index) : UInt8 × UInt64 :=
  ((s.tasks index).info.priority, (s.tasks index).info.affinity)

theorem rights_kept : YieldKeeps fun i => (i.priority, i.affinity) := fun _ _ _ _ => rfl

theorem rights_stepBack (s : Scheduler) (p : Index) : rights (stepBack s p) = rights s :=
  funext (part_stepBack rights_kept)

theorem rights_yieldOn (s : Scheduler) : rights (yieldOn s) = rights s := by
  funext index
  have hy : rights (task_yield s 0) index = rights s index := part_task_yield rights_kept index
  rw [← hy]
  exact part_context_switch (fun i => (i.priority, i.affinity)) index

section
variable {s : Scheduler} {current next : Index}

theorem priority_of_rights {s s' : Scheduler} (h : rights s' = rights s) (index : Index) :
    (s'.tasks index).info.priority = (s.tasks index).info.priority :=
  congrArg Prod.fst (congrFun h index)

theorem affinity_of_rights {s s' : Scheduler} (h : rights s' = rights s) (index : Index) :
    (s'.tasks index).info.affinity = (s.tasks index).info.affinity :=
  congrArg Prod.snd (congrFun h index)

theorem canRun_iff_runnable (ha : Aimed s) (hc : s.current_task 0 = some current)
    (hr : s.state current = .RUNNING) (index : Index) :
    CanRun s index ↔ Runnable (stepBack s current) 0 index := by
  unfold CanRun Runnable
  rw [affinity_of_rights (rights_stepBack s current), state_stepBack, if_pos hr]
  by_cases hi : index = current
  · subst hi
    simp [hr]
  · have hn : s.state index ≠ .RUNNING := fun hrn =>
      hi (Option.some.inj ((ha.running index hrn).symm.trans hc))
    grind

theorem state_yieldOn (hc : s.current_task 0 = some current) :
    let next := choose_next (stepBack s current) 0 current
    (yieldOn s).state = Function.update (stepBack s current).state next .RUNNING ∧
      (yieldOn s).current_task 0 = some next := by
  obtain ⟨hn, hs⟩ := task_yield_next hc
  have ht : SameTurns (task_yield s 0) ((task_yield s 0).step (.contextSwitch 0)) :=
    step_turns nofun
  refine ⟨?_, ?_⟩
  · rw [← hs]
    exact (task_context_switch_kept _ 0).state
  · show ((task_yield s 0).step (.contextSwitch 0)).current_task 0 = _
    rw [ht.current, hn, Function.update_self]

theorem canRun_yieldOn (ha : Aimed s) (hc : s.current_task 0 = some current)
    (hr : s.state current = .RUNNING)
    (hn : Runnable (stepBack s current) 0 (choose_next (stepBack s current) 0 current))
    (index : Index) : CanRun (yieldOn s) index ↔ CanRun s index := by
  have hb := rights_stepBack s current
  rw [canRun_iff_runnable ha hc hr]
  unfold CanRun
  rw [(state_yieldOn hc).1, affinity_of_rights (rights_yieldOn s),
    ← affinity_of_rights hb]
  by_cases hi : index = choose_next (stepBack s current) 0 current
  · rw [← hi] at hn ⊢
    simp [hn, hn.2]
  · rw [Function.update_of_ne hi]
    unfold Runnable
    simp [ha.stepBack hc index]

end

/-! ## Turns -/

/-- The tasks of the highest priority among those that can run on CPU 0, while the current task
runs. -/
structure Turning (tops : Finset Index) (priority : UInt8) (s : Scheduler) : Prop where
  ordered : Ordered s
  aimed : Aimed s
  current : ∃ index, s.current_task 0 = some index ∧ s.state index = .RUNNING
  mem_tops : ∀ index, index ∈ tops ↔ CanRun s index ∧ (s.tasks index).info.priority = priority
  highest : ∀ index, CanRun s index → (s.tasks index).info.priority ≤ priority

section
variable {tops : Finset Index}

theorem Turning.serves (priority : UInt8) (htp : tops.Nonempty) :
    Serves (· ∈ tops) yieldOn (fun s => s.current_task 0) (Turning tops priority) := by
  intro s h
  obtain ⟨current, hc, hr⟩ := h.current
  obtain ⟨top, hto⟩ := htp
  have hbc := rights_stepBack s current
  have hif := canRun_iff_runnable h.aimed hc hr
  have hcr : (stepBack s current).round_robin_cursor 0 = current := by
    rw [(stepBack_turns s current).cursor]
    exact h.aimed.cursor 0 current hc
  have ht := (hif top).mp ((h.mem_tops top).mp hto).1
  have hb := choose_next_best hcr ⟨top, ht⟩
  obtain ⟨hs, hn⟩ := state_yieldOn hc
  have hcn := canRun_yieldOn h.aimed hc hr hb.can_best
  generalize choose_next (stepBack s current) 0 current = next at hb hs hn
  have hp : (s.tasks next).info.priority = priority := by
    have hle := h.highest next ((hif next).mpr hb.can_best)
    have hge := hb.rank_le (mem_around current top) ht
    unfold priorityOf at hge
    rw [priority_of_rights hbc, priority_of_rights hbc, ((h.mem_tops top).mp hto).2] at hge
    exact UInt8.toNat_inj.mp (le_antisymm (UInt8.le_iff_toNat_le.mp hle) hge)
  refine ⟨⟨?_, ?_, ⟨next, hn, ?_⟩, fun index => ?_, fun index hi => ?_⟩, ?_⟩
  · exact (h.ordered.yield 0).contextSwitch 0
  · have htr : SameTurns (task_yield s 0) ((task_yield s 0).step (.contextSwitch 0)) :=
      step_turns nofun
    refine (h.aimed.yield h.ordered 0).of_turns htr fun index hi => ?_
    rw [← (task_context_switch_kept (task_yield s 0) 0).state]
    exact hi
  · rw [hs, Function.update_self]
  · rw [hcn, priority_of_rights (rights_yieldOn s)]
    exact h.mem_tops index
  · rw [priority_of_rights (rights_yieldOn s)]
    exact h.highest index ((hcn index).mp hi)
  · obtain ⟨b, after, hsp, hbf, -⟩ := hb.split
    refine ⟨current, next, b, after, hc, hn, hsp, ?_, fun index hm htk => ?_⟩
    · exact (h.mem_tops next).mpr ⟨(hif next).mpr hb.can_best, hp⟩
    · -- A task b the chosen one has a lower priority, so it is none of these.
      obtain ⟨hi, he⟩ := (h.mem_tops index).mp htk
      grind [priority_of_rights, priorityOf]

end

/-- The next yields, as many as there are such tasks, run each of them once and in the order of the
table from the caller on, and the next one runs none but them. -/
structure TakesTurns (tops : Finset Index) (s : Scheduler) : Prop where
  in_turn : ∀ caller, s.current_task 0 = some caller → ∃ ran : List Index,
    shown yieldOn (fun s => s.current_task 0) s tops.card = ran.map some ∧
      (∀ index, index ∈ ran ↔ index ∈ tops) ∧
      ran.Pairwise fun first second => ahead caller first < ahead caller second
  no_other : tops.Nonempty → ∃ index ∈ tops, (yieldOn s).current_task 0 = some index

/-- In every run, from a state whose current task runs, the tasks of the highest priority take
turns on CPU 0 as long as there are only yields. -/
theorem equal_tasks_take_turns (tick : UInt64) (ops : List Op)
    (horder : InOrder (task_init tick) ops) (current : Index)
    (hcurrent : ((task_init tick).run ops).current_task 0 = some current)
    (hrunning : ((task_init tick).run ops).state current = .RUNNING)
    (tops : Finset Index) (priority : UInt8)
    (htops : ∀ index, index ∈ tops ↔ CanRun ((task_init tick).run ops) index ∧
      (((task_init tick).run ops).tasks index).info.priority = priority)
    (hlower : ∀ index, CanRun ((task_init tick).run ops) index → index ∉ tops →
      (((task_init tick).run ops).tasks index).info.priority < priority) (yields : Nat) :
    TakesTurns tops (yieldOn^[yields] ((task_init tick).run ops)) := by
  obtain ⟨hordered, haimed⟩ := reached_aimed tick horder
  by_cases hnone : tops.Nonempty
  swap
  · rw [Finset.not_nonempty_iff_eq_empty.mp hnone]
    exact ⟨fun _ _ => ⟨[], rfl, by simp, List.Pairwise.nil⟩, fun hsome => absurd hsome (by simp)⟩
  have hstart : Turning tops priority ((task_init tick).run ops) := by
    refine ⟨hordered, haimed, ⟨current, hcurrent, hrunning⟩, htops, fun index hindex => ?_⟩
    by_cases hmem : index ∈ tops
    · rw [((htops index).mp hmem).2]
      exact UInt8.le_refl _
    · exact UInt8.le_of_lt (hlower index hindex hmem)
  have hserves := Turning.serves priority hnone
  have hturning : Turning tops priority (yieldOn^[yields] ((task_init tick).run ops)) := by
    induction yields with
    | zero => exact hstart
    | succ yields ih =>
      rw [Function.iterate_succ_apply']
      exact (hserves _ ih).1
  refine ⟨fun caller hcaller => ⟨queue (· ∈ tops) caller, ?_, fun index => mem_queue, ?_⟩,
    fun _ => ?_⟩
  · have hlength := length_queue tops caller
    rw [hserves.shown_eq hturning hcaller hlength.ge, ← hlength, List.take_length]
  · exact queue_ordered caller
  · obtain ⟨-, _, next, _, _, -, hnext, -, hmem, -⟩ := hserves _ hturning
    exact ⟨next, hmem, hnext⟩

/-- The shell with two threads of its own priority and one of a lower priority. -/
def threeEqual : List Op :=
  [.create (some ['a']) 1 10 1 4096, .create (some ['b']) 1 5 1 8192,
    .create (some ['c']) 1 10 1 12288]

theorem three_equal_tasks_take_turns :
    TakesTurns {0, 1, 3} (yieldOn^[7] ((task_init 0).run threeEqual)) :=
  equal_tasks_take_turns 0 threeEqual (by decide) 0 (by decide) (by decide) {0, 1, 3} 10
    (by decide +kernel) (by decide +kernel) 7

end mvh.task
