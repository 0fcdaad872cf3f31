-- The counters of the scheduler against the table of tasks.
import MvhKernel.TaskLaws

open tally

namespace mvh.task

/-- The counters are the numbers of tasks in each state, and the tasks that were created and
not reaped are those in use. -/
structure Accounts (s : Scheduler) : Prop where
  running : s.scheduler_stats.running.toNat = count s.state .RUNNING
  ready : s.scheduler_stats.ready.toNat = count s.state .READY
  sleeping : s.scheduler_stats.sleeping.toNat = count s.state .SLEEPING
  blocked : s.scheduler_stats.blocked.toNat = count s.state .BLOCKED
  zombies : s.scheduler_stats.zombies.toNat = count s.state .ZOMBIE
  live : (s.scheduler_stats.created - s.scheduler_stats.reaped).toNat =
    (Finset.univ.filter fun i => s.state i ≠ .UNUSED).card

/-! ## One move -/

theorem toNat_moved {n : UInt32} {f : Index → TaskState} {i : Index} {b c : TaskState}
    (h : n.toNat = count f c) : (moved n (f i) b c).toNat = count (Function.update f i b) c := by
  have hu := count_update f i b c
  have hle := count_le f c
  have hle' := count_le (Function.update f i b) c
  have hc : Fintype.card Index = 64 := Fintype.card_fin 64
  unfold moved
  rw [UInt32.toNat_add, UInt32.toNat_sub]
  by_cases ha : f i = c <;> by_cases hb : b = c <;>
    simp only [ha, hb, if_true, if_false, UInt32.toNat_one, UInt32.toNat_zero] at hu ⊢ <;> omega

theorem toNat_movedLive {n : UInt64} {f : Index → TaskState} {i : Index} {b : TaskState}
    (h : n.toNat = (Finset.univ.filter fun j => f j ≠ .UNUSED).card) :
    (movedLive n (f i) b).toNat = (Finset.univ.filter fun j => Function.update f i b j ≠ .UNUSED).card := by
  have hu := count_update f i b .UNUSED
  have hr := card_ne f .UNUSED
  have hrest' := card_ne (Function.update f i b) .UNUSED
  have hc : Fintype.card Index = 64 := Fintype.card_fin 64
  unfold movedLive
  rw [UInt64.toNat_add, UInt64.toNat_sub]
  by_cases ha : f i = .UNUSED <;> by_cases hb : b = .UNUSED <;>
    simp only [ha, hb, if_true, if_false, UInt64.toNat_one, UInt64.toNat_zero] at hu hrest' ⊢ <;> omega

theorem Accounts.moved {s s' : Scheduler} {i : Index} {b : TaskState} (h : Accounts s)
    (hm : Moved s s' i b) : Accounts s' := by
  constructor
  · rw [hm.running, hm.state]
    exact toNat_moved h.running
  · rw [hm.ready, hm.state]
    exact toNat_moved h.ready
  · rw [hm.sleeping, hm.state]
    exact toNat_moved h.sleeping
  · rw [hm.blocked, hm.state]
    exact toNat_moved h.blocked
  · rw [hm.zombies, hm.state]
    exact toNat_moved h.zombies
  · rw [hm.live, hm.state]
    exact toNat_movedLive h.live

theorem Accounts.kept {s s' : Scheduler} (h : Accounts s) (hk : Kept s s') : Accounts s' := by
  obtain ⟨h1, h2, h3, h4, h5, h6⟩ := h
  constructor <;> rw [hk.stats, hk.state] <;> assumption

theorem Accounts.effect {s s' : Scheduler} {b : TaskState} {o : Index → Prop} (h : Accounts s)
    (he : Kept s s' ∨ ∃ i, o i ∧ Moved s s' i b) : Accounts s' := by
  rcases he with hk | ⟨i, _, hm⟩
  · exact h.kept hk
  · exact h.moved hm

/-! ## One step -/

section
variable {s : Scheduler} {op : Op}

theorem Accounts.yield (h : Accounts s) {c : Cpu} (hs : ¬ Stuck s (.yield c)) :
    Accounts (task_yield s c) := by
  rcases hc : s.current_task c with _ | p
  · grind [task_yield]
  have hb : Accounts (stepBack s p) := by
    by_cases hr : s.state p = .RUNNING
    · exact h.moved (stepBack_moved hr)
    · rwa [show stepBack s p = s from if_neg hr]
  rcases task_yield_cases hc hs with ⟨next, _, hrd, hy⟩ | ⟨hrd, hy⟩
  · rw [hy]
    exact hb.moved (switchTo_moved hrd)
  · rw [hy]
    exact hb.moved (goOn_moved hrd)

theorem Accounts.tick (h : Accounts s) (tick : UInt64) : Accounts (task_scheduler_tick s tick) := by
  have hl (indices : List Index) (s : Scheduler) (h : Accounts s) :
      Accounts (indices.foldl (tick_turn tick) s) := by
    induction indices generalizing s with
    | nil => exact h
    | cons index indices ih =>
      apply ih
      rcases tick_turn_effect tick s index with hk | ⟨_, _, hm⟩
      · exact h.kept hk
      · exact h.moved hm
  exact hl _ s h

theorem Accounts.step (h : Accounts s) (ho : Ordered s) (he : Enabled s op)
    (hs : ¬ Stuck s op) : Accounts (s.step op) := by
  cases op with
  | create n e p a st =>
    exact h.effect (task_create_kernel_effect s n e p a st)
  | yield c => exact h.yield hs
  | contextSwitch c => exact h.kept (task_context_switch_kept s c)
  | sleep c w =>
    rcases hc : s.current_task c with _ | index
    · show Accounts (task_sleep s c w)
      unfold task_sleep
      rw [hc]
      exact h
    · exact h.moved (task_sleep_moved w hc (ho.current_running hc he))
  | exit c =>
    obtain ⟨hcd, index, _, hc⟩ := he
    exact h.moved (task_exit_moved hc (ho.current_running hc hcd))
  | wake pid => exact h.effect (task_wake_effect s pid)
  | block pid => exact h.effect (task_block_effect s pid)
  | setAffinity pid a => exact h.kept (task_set_affinity_kept s pid a)
  | tick tick => exact h.tick tick
  | reap pid => exact h.effect (task_reap_effect s pid)

theorem Accounts.not_step (h : Accounts s) (hs : Stuck s op) : ¬ Accounts (s.step op) := by
  cases op with
  | yield c =>
    obtain ⟨p, _, _, hr, hy⟩ := task_yield_of_stuck hs
    intro h'
    have hl := h'.ready
    have hu := count_update s.state p .RUNNING .READY
    rw [if_neg hr, if_neg (by decide)] at hu
    rw [show s.step (.yield c) = goOn s c p from hy, state_goOn] at hl
    have hst : (goOn s c p).scheduler_stats.ready = s.scheduler_stats.ready - 1 := rfl
    rw [hst, UInt32.toNat_sub, UInt32.toNat_one] at hl
    have hr := h.ready
    omega
  | _ => exact hs.elim

end

/-! ## Runs -/

def AlwaysAccounts (s : Scheduler) : List Op → Prop
  | [] => Accounts s
  | op :: ops => Accounts s ∧ AlwaysAccounts (s.step op) ops

theorem AlwaysAccounts.head {s : Scheduler} {ops : List Op} (h : AlwaysAccounts s ops) : Accounts s := by
  cases ops with
  | nil => exact h
  | cons op ops => exact h.1

theorem Accounts.always_iff {s : Scheduler} (h : Accounts s) (ho : Ordered s) {ops : List Op}
    (hor : InOrder s ops) : AlwaysAccounts s ops ↔ NeverStuck s ops := by
  induction ops generalizing s with
  | nil => exact ⟨fun _ => trivial, fun _ => h⟩
  | cons op ops ih =>
    by_cases hs : Stuck s op
    · exact ⟨fun ha => absurd ha.2.head (h.not_step hs), fun hn => absurd hs hn.1⟩
    · have hr := ih (h.step ho hor.1 hs) (ho.step hor.1) hor.2
      exact ⟨fun ha => ⟨hs, hr.mp ha.2⟩, fun hn => ⟨h, hr.mpr hn.2⟩⟩

theorem task_init_accounts (tick : UInt64) : Accounts (task_init tick) := by
  have hs : (task_init tick).state = Function.update (fun _ => .UNUSED) 0 .RUNNING := by
    funext i
    by_cases hi : i = 0
    · subst hi
      rfl
    · simp [task_init, Scheduler.state, hi, cleared]
  have hst : (task_init tick).scheduler_stats = (task_init 0).scheduler_stats := rfl
  constructor <;> rw [hs, hst] <;> decide +kernel

/-- The counters are right at every lock release exactly when no task is stuck in a yield. -/
theorem the_counters_are_right_iff (tick : UInt64) (ops : List Op)
    (horder : InOrder (task_init tick) ops) :
    AlwaysAccounts (task_init tick) ops ↔ NeverStuck (task_init tick) ops :=
  (task_init_accounts tick).always_iff (task_init_ordered tick) horder

theorem one_thread_is_counted_right :
    InOrder (task_init 0) oneThread ∧ NeverStuck (task_init 0) oneThread ∧
      AlwaysAccounts (task_init 0) oneThread := by
  have horder : InOrder (task_init 0) oneThread := by decide +kernel
  have hstuck : NeverStuck (task_init 0) oneThread := by decide +kernel
  exact ⟨horder, hstuck, (the_counters_are_right_iff 0 oneThread horder).mpr hstuck⟩

/-- The shell sleeps alone: it runs on, is still counted as sleeping, and the number
of ready tasks wraps around below 0. -/
theorem a_lone_sleeper_is_counted_wrong :
    InOrder (task_init 0) [.sleep 0 100, .yield 0] ∧
      (let s := (task_init 0).run [.sleep 0 100, .yield 0]
       s.state 0 = .RUNNING ∧ s.scheduler_stats.sleeping = 1 ∧ s.scheduler_stats.ready = 0xFFFFFFFF) ∧
      ¬ AlwaysAccounts (task_init 0) [.sleep 0 100, .yield 0] := by
  have horder : InOrder (task_init 0) [.sleep 0 100, .yield 0] := by decide +kernel
  refine ⟨horder, by decide +kernel, ?_⟩
  rw [(task_init_accounts 0).always_iff (task_init_ordered 0) horder]
  decide +kernel

end mvh.task
