-- Which task a pid stands for.
import MvhKernel.TaskPolicy
import MvhKernel.TaskReaps

open runs

namespace mvh.task

/-! ## Pids -/

def pidOf (s : Scheduler) (index : Index) : UInt32 := (s.tasks index).info.pid

def Live (s : Scheduler) (index : Index) : Prop := s.state index ≠ .UNUSED

/-- The pids tell the tasks apart, and none of them is zero. -/
structure Identified (s : Scheduler) : Prop where
  nonzero : ∀ index, Live s index → pidOf s index ≠ 0
  distinct : ∀ index other, Live s index → Live s other → pidOf s index = pidOf s other → index = other

/-- The arguments are accepted, and there were pages for the stack. -/
def TakesStack (name : Option (List Char)) (entry affinity stack : UInt64) : Prop :=
  (∃ text, name = some text ∧ text ≠ []) ∧ entry ≠ 0 ∧ affinity ≠ 0 ∧ stack ≠ 0

/-- What a creation should return: a negative number when it makes no task, and then the pages are
given back and nothing else has changed, or the positive pid by which the new task is found. -/
def Returns (s : Scheduler) : Op → Prop
  | .create name entry priority affinity stack =>
    let (result, freed, s') := task_create_kernel s name entry priority affinity stack
    (result < 0 ∧ s' = s ∧ (TakesStack name entry affinity stack → freed = true)) ∨
    (0 < result ∧ ∃ index pid, s.state index = .UNUSED ∧ s'.state index = .READY ∧
      (∀ other, other ≠ index → s'.tasks other = s.tasks other) ∧
      result = (UInt32.toNat pid : Int) ∧ index_by_pid s' pid = some index)
  | _ => True

/-- The step returns what it should, and after it the pids tell the tasks apart. -/
def KeepsIdentity (s : Scheduler) (op : Op) : Prop := Returns s op ∧ Identified (s.step op)

/-- A creation that finds a free place needs a pid of 31 bits, not zero, that no task has. -/
def HasPid (s : Scheduler) : Op → Prop
  | .create name entry _ affinity stack => TakesStack name entry affinity stack →
    (∃ index, index ≠ 0 ∧ s.state index = .UNUSED) →
      s.next_pid ≠ 0 ∧ s.next_pid.toNat < 2 ^ 31 ∧ ∀ index, Live s index → pidOf s index ≠ s.next_pid
  | .yield cpu_id => ∀ previous, s.current_task cpu_id = some previous → s.state previous = .UNUSED →
    ∃ index, Runnable s cpu_id index
  | _ => True

def Blank (s : Scheduler) : Prop := ∀ index, s.state index = .UNUSED → pidOf s index = 0

section
variable {s s' : Scheduler}

theorem Identified.found (h : Identified s) {index : Index} (hl : Live s index) :
    index_by_pid s (pidOf s index) = some index := by
  rcases hf : index_by_pid s (pidOf s index) with _ | o
  · have hn := List.find?_eq_none.mp hf index (List.mem_finRange index)
    exact absurd (decide_eq_true ⟨hl, rfl⟩) hn
  · have ho := List.find?_some hf
    simp only [decide_eq_true_eq] at ho
    rw [h.distinct o index ho.1 hl ho.2]

theorem Identified.of_same (h : Identified s) (hl : ∀ index, Live s' index → Live s index)
    (hp : ∀ index, Live s' index → pidOf s' index = pidOf s index) : Identified s' := by
  refine ⟨fun index hi => ?_, fun index o hi ho heq => ?_⟩
  · rw [hp index hi]
    exact h.nonzero index (hl index hi)
  · rw [hp index hi, hp o ho] at heq
    exact h.distinct index o (hl index hi) (hl o ho) heq

/-! ## Creation -/

/-- The task that a creation makes. -/
structure Created (s s' : Scheduler) (index : Index) : Prop where
  free : s.state index = .UNUSED
  state : s'.state = Function.update s.state index .READY
  pid : pidOf s' = Function.update (pidOf s) index s.next_pid
  others : ∀ other, other ≠ index → s'.tasks other = s.tasks other

theorem pidOf_setTask (s : Scheduler) (index : Index) (t : TaskControl) :
    pidOf (s.setTask index t) = Function.update (pidOf s) index t.info.pid := by
  funext i
  unfold pidOf Scheduler.setTask
  grind

theorem mem_tail_finRange (index : Index) : index ∈ (List.finRange TASK_MAX).tail ↔ index ≠ 0 := by
  revert index
  decide

theorem freeIndex_none : freeIndex s = none ↔ ¬ ∃ index, index ≠ 0 ∧ s.state index = .UNUSED := by
  unfold freeIndex
  simp [mem_tail_finRange]

theorem task_create_kernel_cases (s : Scheduler) (n : Option (List Char)) (e : UInt64)
    (p : UInt8) (a st : UInt64) :
    let r := task_create_kernel s n e p a st
    (¬ TakesStack n e a st ∧ r.1 = -1 ∧ r.2.2 = s) ∨
    ((¬ ∃ index, index ≠ 0 ∧ s.state index = .UNUSED) ∧ r.1 = -1 ∧ r.2.1 = true ∧ r.2.2 = s) ∨
    (TakesStack n e a st ∧ r.1 = s.next_pid.toInt32.toInt ∧
      ∃ index, index ≠ 0 ∧ Created s r.2.2 index) := by
  unfold task_create_kernel
  split
  · refine Or.inl ⟨?_, rfl, rfl⟩
    rintro ⟨⟨_, hn, -⟩, -⟩
    cases hn
  rename_i text
  split
  next hr =>
    refine Or.inl ⟨?_, rfl, rfl⟩
    rintro ⟨⟨_, hn, htx⟩, he, haf, -⟩
    grind
  next ha =>
    split
    next hs => exact Or.inl ⟨fun ht => ht.2.2.2 hs, rfl, rfl⟩
    next hs =>
      rw [not_or, not_or] at ha
      split
      next hnn => exact Or.inr (Or.inl ⟨freeIndex_none.mp hnn, rfl, rfl, rfl⟩)
      next index hf =>
        have hi : index ≠ 0 := (mem_tail_finRange index).mp (List.mem_of_find?_eq_some hf)
        refine Or.inr (Or.inr ⟨⟨⟨text, rfl, ha.1⟩, ha.2.1, ha.2.2, hs⟩, rfl,
          index, hi, ?_, state_setTask .., ?_, fun o hne => Function.update_of_ne hne ..⟩)
        · simpa using List.find?_some hf
        · exact pidOf_setTask ..

theorem Created.live_iff {index : Index} (h : Created s s' index) (i : Index) :
    Live s' i ↔ i = index ∨ Live s i := by
  unfold Live
  rw [h.state]
  grind

theorem Created.pid_old {index : Index} (h : Created s s' index) {i : Index} (hl : Live s i) :
    pidOf s' i = pidOf s i := by
  have hi : i ≠ index := fun heq => hl (heq ▸ h.free)
  rw [h.pid, Function.update_of_ne hi]

theorem Created.pid_new {index : Index} (h : Created s s' index) : pidOf s' index = s.next_pid := by
  rw [h.pid, Function.update_self]

theorem Created.identified {index : Index} (h : Created s s' index) (hid : Identified s)
    (hz : s.next_pid ≠ 0) (hf : ∀ i, Live s i → pidOf s i ≠ s.next_pid) : Identified s' := by
  refine ⟨fun i hi => ?_, fun i j hi hj heq => ?_⟩
  · rcases (h.live_iff i).mp hi with rfl | hi
    · rw [h.pid_new]
      exact hz
    · rw [h.pid_old hi]
      exact hid.nonzero i hi
  · rcases (h.live_iff i).mp hi with rfl | hi <;> rcases (h.live_iff j).mp hj with rfl | hj
    · rfl
    · rw [h.pid_new, h.pid_old hj] at heq
      exact absurd heq.symm (hf j hj)
    · rw [h.pid_new, h.pid_old hi] at heq
      exact absurd heq (hf i hi)
    · rw [h.pid_old hi, h.pid_old hj] at heq
      exact hid.distinct i j hi hj heq

theorem Created.fresh {index : Index} (h : Created s s' index) (hid : Identified s') {i : Index}
    (hl : Live s i) : pidOf s i ≠ s.next_pid := by
  intro heq
  have hi : i ≠ index := fun hs => hl (hs ▸ h.free)
  refine hi (hid.distinct i index ((h.live_iff i).mpr (Or.inr hl)) ((h.live_iff index).mpr (Or.inl rfl)) ?_)
  rw [h.pid_old hl, h.pid_new, heq]

theorem toInt_pid (pid : UInt32) : pid.toInt32.toInt =
    if 2 * pid.toNat < 2 ^ 32 then (pid.toNat : Int) else (pid.toNat : Int) - (2 ^ 32 : Nat) :=
  BitVec.toInt_eq_toNat_cond pid.toBitVec

theorem toInt_pid_pos_iff (pid : UInt32) :
    0 < pid.toInt32.toInt ↔ pid ≠ 0 ∧ pid.toNat < 2 ^ 31 := by
  have hlt := pid.toNat_lt
  have hz : pid ≠ 0 ↔ pid.toNat ≠ 0 := by
    rw [← UInt32.toNat_zero, Ne, Ne, UInt32.toNat_inj]
  rw [toInt_pid, hz]
  split <;> omega

theorem create_iff (hid : Identified s) (n : Option (List Char)) (e : UInt64)
    (p : UInt8) (a st : UInt64) :
    KeepsIdentity s (.create n e p a st) ↔
      HasPid s (.create n e p a st) := by
  unfold KeepsIdentity Returns HasPid Scheduler.step
  dsimp only
  have hc := task_create_kernel_cases s n e p a st
  generalize task_create_kernel s n e p a st = r at hc ⊢
  obtain ⟨rs, f, s'⟩ := r
  simp only at hc ⊢
  rcases hc with ⟨hnt, rfl, rfl⟩ | ⟨hfl, rfl, rfl, rfl⟩ | ⟨ht, rfl, index, hi, hn⟩
  · grind
  · grind
  have hr : s'.state index = .READY := by
    rw [hn.state, Function.update_self]
  constructor
  · rintro ⟨⟨-, hsm, -⟩ | ⟨hp, -⟩, hid'⟩ - -
    · rw [hsm, hn.free] at hr
      cases hr
    · obtain ⟨hz, hs⟩ := (toInt_pid_pos_iff s.next_pid).mp hp
      exact ⟨hz, hs, fun i hl => hn.fresh hid' hl⟩
  · intro hpd
    obtain ⟨hz, hs, hf⟩ := hpd ht ⟨index, hi, hn.free⟩
    have hid' := hn.identified hid hz hf
    have hl := (hn.live_iff index).mpr (Or.inl rfl)
    refine ⟨Or.inr ⟨(toInt_pid_pos_iff _).mpr ⟨hz, hs⟩, index, s.next_pid, hn.free, hr,
      hn.others, ?_, ?_⟩, hid'⟩
    · rw [toInt_pid, if_pos (by omega)]
    · rw [← hn.pid_new]
      exact hid'.found hl

/-! ## The other steps -/

theorem pidOf_setInfo (s : Scheduler) {index : Index} {i : TaskInfo}
    (h : i.pid = pidOf s index) : pidOf (s.setInfo index i) = pidOf s :=
  funext (part_setTask s index TaskInfo.pid h)

theorem pidOf_tick (s : Scheduler) (tick : UInt64) : pidOf (task_scheduler_tick s tick) = pidOf s := by
  have ht (s : Scheduler) (index : Index) : pidOf (tick_turn tick s index) = pidOf s := by
    unfold tick_turn
    dsimp only
    by_cases hr : (s.tasks index).info.state = .RUNNING
    · rw [if_pos hr, if_neg]
      · exact pidOf_setInfo s rfl
      · rw [state_setInfo, Function.update_self, hr]
        simp
    · rw [if_neg hr]
      split
      · exact pidOf_setInfo s rfl
      · rfl
  have hl (indices : List Index) (s : Scheduler) :
      pidOf (indices.foldl (tick_turn tick) s) = pidOf s := by
    induction indices generalizing s with
    | nil => rfl
    | cons index indices ih => exact (ih _).trans (ht s index)
  exact hl _ s

theorem pidOf_step (s : Scheduler) {op : Op}
    (hc : ∀ n e p a st, op ≠ .create n e p a st)
    (hr : ∀ pid, op ≠ .reap pid) : pidOf (s.step op) = pidOf s := by
  cases op with
  | create n e p a st => exact absurd rfl (hc n e p a st)
  | reap pid => exact absurd rfl (hr pid)
  | yield c => exact funext (part_task_yield fun _ _ _ _ => rfl)
  | tick tick => exact pidOf_tick s tick
  | contextSwitch c => exact funext (part_context_switch TaskInfo.pid)
  | sleep c w =>
    show pidOf (task_sleep s c w) = pidOf s
    unfold task_sleep
    split
    · rfl
    · exact pidOf_setInfo s rfl
  | exit c =>
    show pidOf (task_exit s c) = pidOf s
    unfold task_exit
    split
    · rfl
    · exact pidOf_setInfo s rfl
  | wake pid =>
    show pidOf (task_wake s pid).2 = pidOf s
    unfold task_wake
    split
    · rfl
    · split
      · rfl
      · exact pidOf_setInfo s rfl
  | block pid =>
    show pidOf (task_block s pid).2 = pidOf s
    unfold task_block
    split
    · rfl
    · split
      · rfl
      · exact pidOf_setInfo s rfl
  | setAffinity pid a =>
    show pidOf (task_set_affinity s pid a).2 = pidOf s
    unfold task_set_affinity
    split
    · rfl
    · split
      · rfl
      · exact pidOf_setInfo s rfl

theorem live_of_legal {op : Op} (hlegal : Legal s op)
    (hcreate : ∀ name entry priority affinity stack, op ≠ .create name entry priority affinity stack)
    {index : Index} (hlive : Live (s.step op) index) : Live s index := by
  rcases hlegal index with hsame | hallowed
  · exact fun hunused => hlive (hsame.trans hunused)
  · intro hunused
    have hinfo : (s.tasks index).info.state = .UNUSED := hunused
    generalize (s.step op).state index = state at hallowed
    cases hallowed with
    | create => exact absurd rfl (hcreate _ _ _ _ _)
    | wake h => simp [hinfo] at h
    | run h | stepBack h | sleep h | exit h | block h | reap h => simp [hinfo] at h
    | tick h => simp [hinfo] at h

theorem unused_of_legal {op : Op} (hl : Legal s op) (hr : ∀ pid, op ≠ .reap pid) {index : Index}
    (hu : (s.step op).state index = .UNUSED) : s.state index = .UNUSED := by
  rcases hl index with hs | ha
  · exact hs.symm.trans hu
  · rw [hu] at ha
    cases ha with
    | reap => exact absurd rfl (hr _)

theorem yield_iff (hid : Identified s) (hb : Blank s) (c : Cpu) :
    KeepsIdentity s (.yield c) ↔ HasPid s (.yield c) := by
  have hp : pidOf (s.step (.yield c)) = pidOf s := pidOf_step s nofun nofun
  constructor
  · rintro ⟨-, hi'⟩ previous hc hu
    by_contra hn
    have hs : Stuck s (.yield c) :=
      ⟨previous, hc, by rw [hu]; decide, by rw [hu]; decide, not_exists.mp hn⟩
    obtain ⟨index, hi, -, -, hy⟩ := task_yield_of_stuck hs
    cases hc.symm.trans hi
    -- The cleared place runs again, with the pid zero.
    have hl : Live (task_yield s c) previous := by
      simp [hy, state_goOn, Function.update_self, Live]
    refine hi'.nonzero previous hl ?_
    rw [hp]
    exact hb previous hu
  · intro hf
    refine ⟨trivial, hid.of_same (fun index hl => ?_) fun index _ => congrFun hp index⟩
    by_cases hs : Stuck s (.yield c)
    · obtain ⟨previous, hc, -, -, hy⟩ := task_yield_of_stuck hs
      by_cases hi : index = previous
      · intro hu
        obtain ⟨_, _, _, _, hn⟩ := hs
        obtain ⟨o, ho⟩ := hf previous hc (hi ▸ hu)
        exact hn o ho
      · have hst : (task_yield s c).state index = s.state index := by
          rw [hy, state_goOn, Function.update_of_ne hi]
        exact fun hu => hl (hst.trans hu)
    · exact live_of_legal (legal_yield hs) nofun hl

theorem task_reap_task (s : Scheduler) (pid : UInt32) (index : Index) :
    (task_reap s pid).2.2.tasks index = s.tasks index ∨ (task_reap s pid).2.2.tasks index = cleared := by
  unfold task_reap
  split
  · exact Or.inl rfl
  split
  · exact Or.inl rfl
  next f _ _ =>
    by_cases hi : index = f
    · rw [hi]
      exact Or.inr (Function.update_self ..)
    · exact Or.inl (Function.update_of_ne hi ..)

theorem keepsIdentity_iff (hid : Identified s) (hblank : Blank s) (hordered : Ordered s) {op : Op}
    (henabled : Enabled s op) : KeepsIdentity s op ↔ HasPid s op := by
  have hother (hstuck : ¬ Stuck s op)
      (hcreate : ∀ name entry priority affinity stack, op ≠ .create name entry priority affinity stack)
      (hreap : ∀ pid, op ≠ .reap pid) : Identified (s.step op) :=
    hid.of_same (fun _ => live_of_legal (hordered.legal henabled hstuck) hcreate)
      fun index _ => congrFun (pidOf_step s hcreate hreap) index
  cases op with
  | create name entry priority affinity stack => exact create_iff hid name entry priority affinity stack
  | yield cpu_id => exact yield_iff hid hblank cpu_id
  | reap pid =>
    have hlegal : Legal s (.reap pid) := hordered.legal henabled not_false
    refine iff_of_true ⟨trivial, hid.of_same (fun _ => live_of_legal hlegal nofun) ?_⟩ trivial
    intro index hlive
    rcases task_reap_task s pid index with hsame | hcleared
    · exact congrArg (fun task : TaskControl => task.info.pid) hsame
    · exact absurd (congrArg (fun task : TaskControl => task.info.state) hcleared) hlive
  | contextSwitch | sleep | exit | wake | block | setAffinity | tick =>
    exact iff_of_true ⟨trivial, hother not_false nofun nofun⟩ trivial

theorem Blank.step (h : Blank s) (ho : Ordered s) {op : Op} (he : Enabled s op) :
    Blank (s.step op) := by
  intro index hu
  by_cases hc : ∃ n e p a st, op = .create n e p a st
  · obtain ⟨n, e, p, a, st, rfl⟩ := hc
    have hcs := task_create_kernel_cases s n e p a st
    simp only at hcs
    show pidOf (task_create_kernel s n e p a st).2.2 index = 0
    have hu : (task_create_kernel s n e p a st).2.2.state index = .UNUSED := hu
    rcases hcs with ⟨-, -, hs⟩ | ⟨-, -, -, hs⟩ | ⟨-, -, new, -, hn⟩
    · rw [hs] at hu ⊢
      exact h index hu
    · rw [hs] at hu ⊢
      exact h index hu
    · rw [hn.state] at hu
      by_cases hi : index = new
      · grind
      · rw [Function.update_of_ne hi] at hu
        rw [hn.pid, Function.update_of_ne hi]
        exact h index hu
  by_cases hr : ∃ pid, op = .reap pid
  · obtain ⟨pid, rfl⟩ := hr
    show pidOf (task_reap s pid).2.2 index = 0
    rcases task_reap_task s pid index with hs | hcl
    · have hst : (task_reap s pid).2.2.state index = s.state index :=
        congrArg (fun t : TaskControl => t.info.state) hs
      refine (congrArg (fun t : TaskControl => t.info.pid) hs).trans (h index ?_)
      exact hst.symm.trans hu
    · exact congrArg (fun t : TaskControl => t.info.pid) hcl
  simp only [not_exists] at hc hr
  have hst : s.state index = .UNUSED := by
    by_cases hsc : Stuck s op
    · cases op with
      | yield c =>
        obtain ⟨pr, -, -, -, hy⟩ := task_yield_of_stuck hsc
        have hu : (task_yield s c).state index = .UNUSED := hu
        rw [hy, state_goOn] at hu
        grind
      | _ => exact hsc.elim
    · exact unused_of_legal (ho.legal he hsc) hr hu
  rw [pidOf_step s hc hr]
  exact h index hst

/-! ## Runs -/

theorem identity_iff (hid : Identified s) (hb : Blank s) (ho : Ordered s) {ops : List Op}
    (hor : InOrder s ops) :
    Each Scheduler.step KeepsIdentity s ops ↔ Each Scheduler.step HasPid s ops := by
  induction ops generalizing s with
  | nil => exact Iff.rfl
  | cons op ops ih =>
    have hs := keepsIdentity_iff hid hb ho hor.1
    have hr (hk : KeepsIdentity s op) :=
      ih hk.2 (hb.step ho hor.1) (ho.step hor.1) hor.2
    constructor
    · exact fun h => ⟨hs.mp h.1, (hr h.1).mp h.2⟩
    · exact fun h => ⟨hs.mpr h.1, (hr (hs.mpr h.1)).mpr h.2⟩

end

theorem state_task_init (tick : UInt64) {index : Index} (h : index ≠ 0) :
    (task_init tick).state index = .UNUSED ∧ pidOf (task_init tick) index = 0 := by
  unfold Scheduler.state pidOf task_init
  dsimp only
  rw [Function.update_of_ne h]
  exact ⟨rfl, rfl⟩

theorem task_init_identified (tick : UInt64) : Identified (task_init tick) := by
  have hf {index : Index} (hl : Live (task_init tick) index) : index = 0 :=
    not_not.mp fun hne => hl (state_task_init tick hne).1
  refine ⟨fun index hl => ?_, fun index o hi ho _ => ?_⟩
  · rw [hf hl]
    exact (by decide : (1 : UInt32) ≠ 0)
  · rw [hf hi, hf ho]

theorem task_init_blank (tick : UInt64) : Blank (task_init tick) := by
  intro index hu
  by_cases hi : index = 0
  · subst hi
    cases hu
  · exact (state_task_init tick hi).2

/-- In a run of any length, the pids tell the tasks apart in every state and every creation returns
what it should, just when every creation has a pid and no cleared place runs again. -/
theorem tasks_keep_their_identity_iff (tick : UInt64) (ops : List Op)
    (horder : InOrder (task_init tick) ops) :
    Identified (task_init tick) ∧ Each Scheduler.step KeepsIdentity (task_init tick) ops ↔
      Each Scheduler.step HasPid (task_init tick) ops := by
  have hid := task_init_identified tick
  have hrun := identity_iff hid (task_init_blank tick) (task_init_ordered tick) horder
  exact ⟨fun h => hrun.mp h.2, fun h => ⟨hid, hrun.mpr h⟩⟩

theorem one_thread_keeps_its_identity :
    Identified (task_init 0) ∧ Each Scheduler.step KeepsIdentity (task_init 0) oneThread := by
  refine (tasks_keep_their_identity_iff 0 oneThread (by decide)).mpr
    ⟨fun _ _ => ⟨by decide, by decide, ?_⟩, ?_, trivial, trivial, ?_, trivial, trivial, trivial⟩
  · unfold Live pidOf
    decide +kernel
  · unfold HasPid
    decide +kernel
  · unfold HasPid
    decide +kernel

/-! ## A counter that runs out -/

def oneThreadMore (pid : UInt32) : List Op :=
  [.create (some ['a']) 1 20 1 4096, .yield 0, .contextSwitch 0, .exit 0, .yield 0, .contextSwitch 0,
    .reap pid]

def threadsInTurn : Nat → List Op
  | 0 => []
  | n + 1 => threadsInTurn n ++ oneThreadMore (UInt32.ofNat (2 + n))

def IsShell (state : TaskState) (task : TaskControl) : Prop :=
  task.info.state = state ∧ task.info.pid = 1 ∧ task.info.priority = 10 ∧ task.info.affinity = 1 ∧
    task.context = .code

def IsThread (state : TaskState) (pid : UInt32) (task : TaskControl) : Prop :=
  task.info.state = state ∧ task.info.pid = pid ∧ task.info.priority = 20 ∧ task.info.affinity = 1

/-- CPU 0 and the first two places of the table, where the shell and the thread are. -/
structure Stage (s : Scheduler) (current : Index) (activity : Activity)
    (first second : TaskControl → Prop) (next_pid : UInt32) : Prop where
  current_task : s.current_task 0 = some current
  cursor : s.round_robin_cursor 0 = current
  activity : s.activity 0 = activity
  first : first (s.tasks 0)
  second : second (s.tasks 1)
  others : ∀ index, index ≠ 0 → index ≠ 1 → s.state index = .UNUSED
  next_pid : s.next_pid = next_pid

section
variable {s : Scheduler} {pid next_pid : UInt32}

theorem Stage.create (h : Stage s 0 (.runs .code) (IsShell .RUNNING) (fun t => t.info.state = .UNUSED) pid) :
    Stage (s.step (.create (some ['a']) 1 20 1 4096)) 0 (.runs .code) (IsShell .RUNNING)
      (fun t => IsThread .READY pid t ∧ t.context = .code) (pid + 1) := by
  have hfr : freeIndex s = some 1 := List.find?_cons_of_pos (decide_eq_true h.second)
  have hst : s.step (.create (some ['a']) 1 20 1 4096) =
      (task_create_kernel s (some ['a']) 1 20 1 4096).2.2 := rfl
  unfold task_create_kernel at hst
  rw [hfr] at hst
  rw [hst]
  refine ⟨h.current_task, h.cursor, h.activity, ?_, ?_, fun index hf hs => ?_, ?_⟩
  · exact h.first
  · exact ⟨⟨rfl, h.next_pid, rfl, rfl⟩, rfl⟩
  · show (Function.update s.tasks 1 _ index).info.state = .UNUSED
    rw [Function.update_of_ne hs]
    exact h.others index hf hs
  · show s.next_pid + 1 = pid + 1
    rw [h.next_pid]

theorem Stage.to_thread (h : Stage s 0 (.runs .code) (IsShell .RUNNING)
      (fun t => IsThread .READY pid t ∧ t.context = .code) next_pid) :
    InOrder s [.yield 0, .contextSwitch 0] ∧
      Stage (s.run [.yield 0, .contextSwitch 0]) 1 (.runs .code) (IsShell .READY)
        (IsThread .RUNNING pid) next_pid := by
  obtain ⟨hse, hsl, hs, hsh, -⟩ := h.first
  obtain ⟨⟨htd, htp, ht, hth⟩, htr⟩ := h.second
  obtain ⟨ha, hn⟩ := stepBack_rest s 0
  have hts := tasks_stepBack hse
  have hf : (stepBack s 0).tasks 0 = _ := (congrFun hts 0).trans (Function.update_self ..)
  have ho {index : Index} (hne : index ≠ 0) : (stepBack s 0).tasks index = s.tasks index :=
    (congrFun hts index).trans (Function.update_of_ne hne ..)
  have hsc : (stepBack s 0).tasks 1 = s.tasks 1 := ho (by decide)
  have hch : choose_next (stepBack s 0) 0 0 = 1 := by
    refine choose_next_eq ?_ ⟨?_, ?_⟩ fun index hi hne => ?_
    · rw [(stepBack_turns s 0).cursor]
      exact h.cursor
    · unfold Scheduler.state
      rw [hsc]
      exact htd
    · rw [hsc, hth]
      decide
    · have hz : index = 0 := by
        by_contra hz
        have hst : (stepBack s 0).state index = .UNUSED := by
          unfold Scheduler.state
          rw [ho hz]
          exact h.others index hz hne
        exact absurd (hst.symm.trans hi.1) nofun
      simp [hz, hf, hsc, ht, hs, priorityOf]
  obtain ⟨hsw, ⟨hc, hcr, hr, hnx⟩, hp, hin, -, hrs⟩ :=
    switch_eq h.current_task hch (by decide)
  have hy : Enabled s (.yield 0) := congrArg Activity.isSwitching h.activity
  refine ⟨⟨hy, hsw, trivial⟩, hc, hcr, ?_, ?_, ?_, fun index hz hon => ?_, ?_⟩
  · rw [hr, hsc, htr]
  · rw [hp, hf, ha, h.activity]
    exact ⟨rfl, hsl, hs, hsh, rfl⟩
  · grind [IsThread]
  · unfold Scheduler.state
    rw [hrs index hz hon, ho hz]
    exact h.others index hz hon
  · rw [hnx, hn, h.next_pid]

theorem Stage.exit (h : Stage s 1 (.runs .code) (IsShell .READY) (IsThread .RUNNING pid) next_pid) :
    Enabled s (.exit 0) ∧ Stage (s.step (.exit 0)) 1 (.runs .exited) (IsShell .READY)
      (IsThread .ZOMBIE pid) next_pid := by
  have hs : s.step (.exit 0) = task_exit s 0 := rfl
  unfold task_exit at hs
  rw [h.current_task] at hs
  rw [hs]
  obtain ⟨-, hpd, hp, ha⟩ := h.second
  refine ⟨⟨h.activity, 1, by decide, h.current_task⟩, h.current_task, h.cursor, ?_, h.first,
    ⟨rfl, hpd, hp, ha⟩, fun index hz ho => ?_, h.next_pid⟩
  · show Function.update s.activity 0 _ 0 = _
    exact Function.update_self ..
  · show (Function.update s.tasks 1 _ index).info.state = .UNUSED
    rw [Function.update_of_ne ho]
    exact h.others index hz ho

theorem Stage.to_shell (h : Stage s 1 (.runs .exited) (IsShell .READY) (IsThread .ZOMBIE pid) next_pid) :
    InOrder s [.yield 0, .contextSwitch 0] ∧
      Stage (s.run [.yield 0, .contextSwitch 0]) 0 (.runs .code) (IsShell .RUNNING)
        (IsThread .ZOMBIE pid) next_pid := by
  obtain ⟨hse, hsp, hsl, hs, hsh⟩ := h.first
  have hz : s.state 1 = .ZOMBIE := h.second.1
  have hb : stepBack s 1 = s := if_neg (by rw [hz]; decide)
  have hch : choose_next (stepBack s 1) 0 1 = 0 := by
    rw [hb]
    refine choose_next_eq h.cursor ⟨hse, ?_⟩ fun index hi hne => ?_
    · rw [hs]
      decide
    · have hr : s.state index = .READY := hi.1
      by_cases ho : index = 1
      · grind
      · rw [h.others index hne ho] at hr
        cases hr
  obtain ⟨hsw, ⟨hc, hcr, hrn, hn⟩, hp, hin, hcn, hrs⟩ :=
    switch_eq h.current_task hch (by decide)
  rw [hb] at hrn hn hp hin hcn hrs
  have hy : Enabled s (.yield 0) := congrArg Activity.isSwitching h.activity
  refine ⟨⟨hy, hsw, trivial⟩, hc, hcr, ?_, ?_, ?_, fun index hzr ho => ?_, ?_⟩
  · rw [hrn, hsh]
  · grind [IsShell]
  · rw [hp]
    exact h.second
  · unfold Scheduler.state
    rw [hrs index ho hzr]
    exact h.others index hzr ho
  · rw [hn, h.next_pid]

theorem Stage.reap (hp : pid ≠ 1)
    (h : Stage s 0 (.runs .code) (IsShell .RUNNING) (IsThread .ZOMBIE pid) next_pid) :
    Stage (s.step (.reap pid)) 0 (.runs .code) (IsShell .RUNNING)
      (fun t => t.info.state = .UNUSED) next_pid := by
  obtain ⟨hz, ht, -⟩ := h.second
  have hfr : ¬ (s.state 0 ≠ .UNUSED ∧ (s.tasks 0).info.pid = pid) :=
    fun hf => hp (hf.2.symm.trans h.first.2.1)
  have hsc : s.state 1 ≠ .UNUSED ∧ (s.tasks 1).info.pid = pid := by
    refine ⟨?_, ht⟩
    show (s.tasks 1).info.state ≠ .UNUSED
    rw [hz]
    decide
  have hf : index_by_pid s pid = some 1 :=
    (List.find?_cons_of_neg (by simpa using hfr)).trans
      (List.find?_cons_of_pos (decide_eq_true hsc))
  have hs : s.step (.reap pid) = (task_reap s pid).2.2 := rfl
  have hst : s.state 1 = .ZOMBIE := hz
  unfold task_reap at hs
  rw [hf] at hs
  dsimp only at hs
  rw [if_neg (not_not.mpr hst)] at hs
  rw [hs]
  refine ⟨h.current_task, h.cursor, h.activity, h.first, rfl, fun index hzr ho => ?_, h.next_pid⟩
  show (Function.update s.tasks 1 _ index).info.state = .UNUSED
  rw [Function.update_of_ne ho]
  exact h.others index hzr ho

theorem Stage.one_more (hp : pid ≠ 1)
    (h : Stage s 0 (.runs .code) (IsShell .RUNNING) (fun t => t.info.state = .UNUSED) pid) :
    InOrder s (oneThreadMore pid) ∧
      Stage (s.run (oneThreadMore pid)) 0 (.runs .code) (IsShell .RUNNING)
        (fun t => t.info.state = .UNUSED) (pid + 1) := by
  obtain ⟨⟨hy, hs, -⟩, ht⟩ := h.create.to_thread
  obtain ⟨hex, he⟩ := ht.exit
  obtain ⟨⟨hy', hs', -⟩, hsh⟩ := he.to_shell
  exact ⟨⟨trivial, hy, hs, hex, hy', hs', trivial, trivial⟩, hsh.reap hp⟩

end

theorem threads_in_turn {n : Nat} (hn : 2 + n < 2 ^ 32) :
    InOrder (task_init 0) (threadsInTurn n) ∧
      Stage ((task_init 0).run (threadsInTurn n)) 0 (.runs .code) (IsShell .RUNNING)
        (fun t => t.info.state = .UNUSED) (UInt32.ofNat (2 + n)) := by
  induction n with
  | zero =>
    refine ⟨trivial, rfl, rfl, rfl, ⟨rfl, rfl, rfl, rfl, rfl⟩, ?_, fun index hz _ => ?_, rfl⟩
    · exact (state_task_init 0 (by decide)).1
    · exact (state_task_init 0 hz).1
  | succ n ih =>
    obtain ⟨ho, hs⟩ := ih (by omega)
    have hp : UInt32.ofNat (2 + n) ≠ 1 := by
      intro heq
      have hnt : (UInt32.ofNat (2 + n)).toNat = 1 := congrArg UInt32.toNat heq
      grind [UInt32.toNat_ofNat_of_lt', Nat.lt_of_succ_lt]
    obtain ⟨hm, hnx⟩ := hs.one_more hp
    obtain ⟨ha, hr⟩ := inOrder_append ho hm
    refine ⟨ha, ?_⟩
    have hc : UInt32.ofNat (2 + (n + 1)) = UInt32.ofNat (2 + n) + 1 := UInt32.ofNat_add (2 + n) 1
    rw [hc]
    exact hr ▸ hnx

/-- The next thread is made, but its pid is returned as a negative number. -/
structure NegativePid (s : Scheduler) : Prop where
  free : s.state 1 = .UNUSED
  made : (task_create_kernel s (some ['a']) 1 20 1 4096).2.2.state 1 = .READY
  result : (task_create_kernel s (some ['a']) 1 20 1 4096).1 = -2147483648
  broken : ¬ KeepsIdentity s (.create (some ['a']) 1 20 1 4096)

theorem Stage.negative_pid {s : Scheduler} (h : Stage s 0 (.runs .code) (IsShell .RUNNING)
    (fun t => t.info.state = .UNUSED) 2147483648) : NegativePid s := by
  have hrd : (task_create_kernel s (some ['a']) 1 20 1 4096).2.2.state 1 = .READY :=
    h.create.second.1.1
  have hrs : (task_create_kernel s (some ['a']) 1 20 1 4096).1 = -2147483648 := by
    rcases task_create_kernel_cases s (some ['a']) 1 20 1 4096 with ⟨hnt, -⟩ | ⟨hf, -⟩ | ⟨-, hpd, -⟩
    · exact absurd ⟨⟨['a'], rfl, by decide⟩, by decide, by decide, by decide⟩ hnt
    · exact absurd ⟨1, by decide, h.second⟩ hf
    · rw [hpd, h.next_pid]
      decide
  refine ⟨h.second, hrd, hrs, ?_⟩
  rintro ⟨hr, -⟩
  unfold Returns at hr
  dsimp only at hr
  generalize task_create_kernel s (some ['a']) 1 20 1 4096 = r at hr hrs hrd
  obtain ⟨rs, f, s'⟩ := r
  rcases hr with ⟨-, hs, -⟩ | ⟨hp, -⟩
  · have hu : s.state 1 = .UNUSED := h.second
    grind
  · omega

/-- This is so after 2147483646 threads that were made, left and were reaped in turn. -/
theorem the_pids_run_out :
    InOrder (task_init 0) (threadsInTurn 2147483646) ∧
      NegativePid ((task_init 0).run (threadsInTurn 2147483646)) := by
  have hall (n : Nat) (hn : 2 + n = 2147483648) : InOrder (task_init 0) (threadsInTurn n) ∧
      NegativePid ((task_init 0).run (threadsInTurn n)) := by
    obtain ⟨horder, hstage⟩ := threads_in_turn (n := n) (by omega)
    rw [hn] at hstage
    exact ⟨horder, hstage.negative_pid⟩
  exact hall 2147483646 rfl

end mvh.task
