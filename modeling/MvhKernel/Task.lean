-- The scheduler of `task.c`.
import Mathlib.Algebra.Ring.Nat
import MvhKernel.Tally

namespace mvh.task

abbrev TASK_MAX : Nat := 64
abbrev SMP_MAX_CPUS : Nat := 64
def TASK_NAME_MAX : Nat := 24
def TASK_STACK_PAGES : UInt32 := 4

abbrev Index := Fin TASK_MAX
abbrev Cpu := Fin SMP_MAX_CPUS

scoped instance slots : NeZero TASK_MAX := ⟨by decide⟩

inductive TaskState where
  | UNUSED | RUNNING | READY | SLEEPING | BLOCKED | STOPPED | ZOMBIE
  deriving DecidableEq

/-- Where a thread goes on when it runs: in its own code, or in the endless loop
at the end of `task_bootstrap`. -/
inductive Thread where
  | code | exited
  deriving DecidableEq

/-- What a CPU does with its current thread: it runs it, it is in
`task_sleep_until` before the yield, or in `task_yield` before the context switch. -/
inductive Activity where
  | runs (thread : Thread)
  | sleeping
  | switching (thread : Thread) (previous next : Index)
  deriving DecidableEq

def Activity.thread : Activity → Thread
  | .runs thread => thread
  | .sleeping => .code
  | .switching thread _ _ => thread

structure TaskInfo where
  pid : UInt32
  tid : UInt32
  cpu_id : UInt32
  priority : UInt8
  state : TaskState
  affinity : UInt64
  created_tick : UInt64
  runtime_ticks : UInt64
  wake_tick : UInt64
  context_switches : UInt64
  name : List Char

/-- The entry point, its argument and the registers are kept as the `Thread` that they lead to. -/
structure TaskControl where
  info : TaskInfo
  context : Thread
  stack_base : UInt64
  stack_pages : UInt32

structure SchedulerStats where
  context_switches : UInt64
  yields : UInt64
  created : UInt64
  reaped : UInt64
  running : UInt32
  ready : UInt32
  sleeping : UInt32
  blocked : UInt32
  zombies : UInt32

/-- The scheduler, and what each CPU does. -/
structure Scheduler where
  tasks : Index → TaskControl
  current_task : Cpu → Option Index
  next_pid : UInt32
  round_robin_cursor : Cpu → Index
  scheduler_stats : SchedulerStats
  activity : Cpu → Activity

def cleared : TaskControl where
  info :=
    { pid := 0, tid := 0, cpu_id := 0, priority := 0, state := .UNUSED, affinity := 0
      created_tick := 0, runtime_ticks := 0, wake_tick := 0, context_switches := 0, name := [] }
  context := .code
  stack_base := 0
  stack_pages := 0

def copy_name (source : List Char) : List Char := source.take (TASK_NAME_MAX - 1)

namespace Scheduler

def state (s : Scheduler) (index : Index) : TaskState := (s.tasks index).info.state

def setTask (s : Scheduler) (index : Index) (task : TaskControl) : Scheduler :=
  { s with tasks := Function.update s.tasks index task }

def setInfo (s : Scheduler) (index : Index) (info : TaskInfo) : Scheduler :=
  s.setTask index { s.tasks index with info }

def setState (s : Scheduler) (index : Index) (state : TaskState) : Scheduler :=
  s.setInfo index { (s.tasks index).info with state }

def setStats (s : Scheduler) (scheduler_stats : SchedulerStats) : Scheduler := { s with scheduler_stats }

def setActivity (s : Scheduler) (cpu_id : Cpu) (activity : Activity) : Scheduler :=
  { s with activity := Function.update s.activity cpu_id activity }

end Scheduler

/-! ## Looking for tasks -/

def index_by_pid (s : Scheduler) (pid : UInt32) : Option Index :=
  (List.finRange TASK_MAX).find? fun index => s.state index ≠ .UNUSED ∧ (s.tasks index).info.pid = pid

def affine (affinity : UInt64) (cpu_id : Cpu) : Bool := affinity &&& (1 <<< cpu_id.val.toUInt64) ≠ 0

/-- One turn of the loop of `choose_next`: the selected index and the best priority so far. -/
def choose_next_turn (s : Scheduler) (cpu_id : Cpu) (previous : Index) (best : Index × UInt8)
    (index : Index) : Index × UInt8 :=
  let info := (s.tasks index).info
  if info.state = .READY ∧ affine info.affinity cpu_id ∧ (best.1 = previous ∨ info.priority > best.2) then
    (index, info.priority)
  else best

/-- The indices in the order of the loop: all 64, from the one after the cursor on. -/
def cyclicFrom (cursor : Index) : List Index := (List.finRange TASK_MAX).map fun offset => cursor + (offset + 1)

def choose_next (s : Scheduler) (cpu_id : Cpu) (previous : Index) : Index :=
  ((cyclicFrom (s.round_robin_cursor cpu_id)).foldl (choose_next_turn s cpu_id previous) (previous, 0)).1

/-! ## Critical sections -/

def task_init (tick : UInt64) : Scheduler where
  tasks := Function.update (fun _ => cleared) 0
    { cleared with
      info :=
        { cleared.info with
          pid := 1, tid := 1, cpu_id := 0, priority := 10, state := .RUNNING, affinity := 1
          created_tick := tick, name := copy_name "kernel-shell".toList } }
  current_task := Function.update (fun _ => none) 0 (some 0)
  next_pid := 2
  round_robin_cursor _ := 0
  scheduler_stats :=
    { context_switches := 0, yields := 0, created := 1, reaped := 0
      running := 1, ready := 0, sleeping := 0, blocked := 0, zombies := 0 }
  activity _ := .runs .code

def freeIndex (s : Scheduler) : Option Index :=
  (List.finRange TASK_MAX).tail.find? fun index => s.state index = .UNUSED

/-- The stack is what `pmm_alloc_pages` gives, 0 when it fails. -/
def task_create_kernel (s : Scheduler) (name : Option (List Char)) (entry : UInt64) (priority : UInt8)
    (affinity stack : UInt64) : Int × Bool × Scheduler :=
  match name with
  | none => (-1, false, s)
  | some name =>
    if name = [] ∨ entry = 0 ∨ affinity = 0 then (-1, false, s)
    else if stack = 0 then (-1, false, s)
    else
      match freeIndex s with
      | none => (-1, true, s)
      | some index =>
        let info : TaskInfo :=
          { cleared.info with
            pid := s.next_pid, tid := s.next_pid, cpu_id := 0xFFFFFFFF, priority
            state := .READY, affinity, name := copy_name name }
        let stats := s.scheduler_stats
        let s := s.setTask index
          { info, context := .code, stack_base := stack, stack_pages := TASK_STACK_PAGES }
        let s := { s with next_pid := s.next_pid + 1 }
        let s := s.setStats { stats with created := stats.created + 1, ready := stats.ready + 1 }
        (info.pid.toInt32.toInt, false, s)

/-- `task_yield` from the lock on, for the task `previous` that runs on the CPU:
it steps back, when it was running, and the next task is chosen. -/
def stepBack (s : Scheduler) (previous : Index) : Scheduler :=
  if s.state previous = .RUNNING then
    let stats := s.scheduler_stats
    (s.setState previous .READY).setStats
      { stats with running := stats.running - 1, ready := stats.ready + 1 }
  else s

def goOn (s : Scheduler) (cpu_id : Cpu) (previous : Index) : Scheduler :=
  let stats := s.scheduler_stats
  let s := s.setState previous .RUNNING
  let s := s.setStats { stats with ready := stats.ready - 1, running := stats.running + 1 }
  s.setActivity cpu_id (.runs (s.activity cpu_id).thread)

def switchTo (s : Scheduler) (cpu_id : Cpu) (previous next : Index) : Scheduler :=
  let stats := s.scheduler_stats
  let info := (s.tasks next).info
  let s := s.setInfo next
    { info with
      state := .RUNNING, cpu_id := UInt32.ofNat cpu_id.val, context_switches := info.context_switches + 1 }
  let s := s.setStats
    { stats with
      ready := stats.ready - 1, running := stats.running + 1
      context_switches := stats.context_switches + 1, yields := stats.yields + 1 }
  let s :=
    { s with
      current_task := Function.update s.current_task cpu_id (some next)
      round_robin_cursor := Function.update s.round_robin_cursor cpu_id next }
  s.setActivity cpu_id (.switching (s.activity cpu_id).thread previous next)

def task_yield (s : Scheduler) (cpu_id : Cpu) : Scheduler :=
  match s.current_task cpu_id with
  | none => s
  | some previous =>
    let s := stepBack s previous
    let next := choose_next s cpu_id previous
    if next = previous then goOn s cpu_id previous else switchTo s cpu_id previous next

/-- The context of the previous task is saved and that of the next one is loaded. -/
def task_context_switch (s : Scheduler) (cpu_id : Cpu) : Scheduler :=
  match s.activity cpu_id with
  | .switching thread previous next =>
    let s := s.setTask previous { s.tasks previous with context := thread }
    s.setActivity cpu_id (.runs (s.tasks next).context)
  | _ => s

def task_sleep (s : Scheduler) (cpu_id : Cpu) (wake_tick : UInt64) : Scheduler :=
  match s.current_task cpu_id with
  | none => s
  | some index =>
    let stats := s.scheduler_stats
    let s := s.setInfo index { (s.tasks index).info with state := .SLEEPING, wake_tick }
    let s := s.setStats { stats with running := stats.running - 1, sleeping := stats.sleeping + 1 }
    s.setActivity cpu_id .sleeping

/-- `task_bootstrap` after the entry function has returned, up to the loop. -/
def task_exit (s : Scheduler) (cpu_id : Cpu) : Scheduler :=
  match s.current_task cpu_id with
  | none => s
  | some index =>
    let stats := s.scheduler_stats
    let s := s.setState index .ZOMBIE
    let s := s.setStats { stats with zombies := stats.zombies + 1, running := stats.running - 1 }
    s.setActivity cpu_id (.runs .exited)

def task_wake (s : Scheduler) (pid : UInt32) : Int × Scheduler :=
  match index_by_pid s pid with
  | none => (-1, s)
  | some index =>
    if s.state index ≠ .SLEEPING ∧ s.state index ≠ .BLOCKED then (-1, s)
    else
      let stats := s.scheduler_stats
      let stats :=
        if s.state index = .SLEEPING then { stats with sleeping := stats.sleeping - 1 }
        else { stats with blocked := stats.blocked - 1 }
      (0, (s.setState index .READY).setStats { stats with ready := stats.ready + 1 })

def task_block (s : Scheduler) (pid : UInt32) : Int × Scheduler :=
  match index_by_pid s pid with
  | none => (-1, s)
  | some index =>
    if s.state index ≠ .READY then (-1, s)
    else
      let stats := s.scheduler_stats
      (0, (s.setState index .BLOCKED).setStats
        { stats with ready := stats.ready - 1, blocked := stats.blocked + 1 })

def task_set_affinity (s : Scheduler) (pid : UInt32) (affinity : UInt64) : Int × Scheduler :=
  if affinity = 0 then (-1, s)
  else
    match index_by_pid s pid with
    | none => (-1, s)
    | some index => (0, s.setInfo index { (s.tasks index).info with affinity })

def tick_turn (tick : UInt64) (s : Scheduler) (index : Index) : Scheduler :=
  let info := (s.tasks index).info
  let s :=
    if info.state = .RUNNING then s.setInfo index { info with runtime_ticks := info.runtime_ticks + 1 } else s
  if s.state index = .SLEEPING ∧ (s.tasks index).info.wake_tick ≤ tick then
    let stats := s.scheduler_stats
    (s.setState index .READY).setStats
      { stats with sleeping := stats.sleeping - 1, ready := stats.ready + 1 }
  else s

def task_scheduler_tick (s : Scheduler) (tick : UInt64) : Scheduler :=
  (List.finRange TASK_MAX).foldl (tick_turn tick) s

/-- The result is the value that the function returns, and the stack that is freed. -/
def task_reap (s : Scheduler) (pid : UInt32) : Int × Option (UInt64 × UInt32) × Scheduler :=
  match index_by_pid s pid with
  | none => (-1, none, s)
  | some index =>
    if s.state index ≠ .ZOMBIE then (-1, none, s)
    else
      let task := s.tasks index
      let stats := s.scheduler_stats
      let s := s.setTask index cleared
      (0, some (task.stack_base, task.stack_pages),
        s.setStats { stats with zombies := stats.zombies - 1, reaped := stats.reaped + 1 })

end mvh.task
