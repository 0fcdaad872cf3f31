-- The TLB shootdown of `smp.c`.
import Mathlib.Algebra.Ring.Nat
import Mathlib.Data.Fintype.Card
import Mathlib.Data.List.Basic

namespace mvh.smp

abbrev SMP_MAX_CPUS : Nat := 64
abbrev Cpu := Fin SMP_MAX_CPUS

scoped instance cpus : NeZero SMP_MAX_CPUS := ⟨by decide⟩

structure Range where
  address : UInt64
  size : UInt64
  deriving DecidableEq

def Range.Covers (outer inner : Range) : Prop :=
  outer.address.toNat ≤ inner.address.toNat ∧
    inner.address.toNat + inner.size.toNat ≤ outer.address.toNat + outer.size.toNat

/-- An `invalidate_range` that a CPU has executed. -/
structure Invalidation where
  cpu : Cpu
  range : Range

/-- What is left of a call once the interrupts are sent: its own `invalidate_range`, the wait
loop, the unlock, and the last look at the acknowledgements. -/
inductive Stage where
  | invalidate | wait | unlock | compare
  deriving DecidableEq

/-- How far `smp_tlb_shootdown` has come on a CPU: it waits for the lock, has the lock, has
stored the address, the size and the 0, and has sent the interrupts. -/
inductive Call where
  | idle
  | waiting (range : Range)
  | locked (range : Range)
  | addressed (range : Range)
  | stored (range : Range) (mark : Nat)
  | zeroed (range : Range) (mark : Nat)
  | sent (stage : Stage) (range : Range) (mark : Nat) (expected : UInt32)
  | failed
  deriving DecidableEq

/-- How far `smp_tlb_ipi` has come on a CPU. -/
inductive Handler where
  | idle
  | entered
  | gotAddress (address : UInt64)
  | gotRange (range : Range)
  | invalidated
  deriving DecidableEq

/-- The shared variables, with the holder of `tlb_lock`, and the CPUs. -/
structure Smp where
  tlb_lock : Option Cpu
  tlb_address : UInt64
  tlb_size : UInt64
  tlb_acknowledged : UInt32
  pending : Cpu → Nat
  handler : Cpu → Handler
  call : Cpu → Call
  log : List Invalidation

inductive Op where
  /-- The CPU calls `smp_tlb_shootdown`. -/
  | call (cpu : Cpu) (range : Range)
  /-- The call on the CPU goes on. `late` says that sending the interrupts or the wait loop takes
  too long, `lost` that the interrupts were not sent then. -/
  | proceed (cpu : Cpu) (late lost : Bool)
  /-- The handler on the CPU goes on, or the CPU takes an interrupt. -/
  | handle (cpu : Cpu)

section
variable (online : Cpu → Bool)

def smp_online_count : UInt32 := UInt32.ofNat (Finset.univ.filter fun c => online c = true).card

def setCall (s : Smp) (cpu : Cpu) (call : Call) : Smp := { s with call := Function.update s.call cpu call }

def smp_tlb_shootdown (s : Smp) (cpu : Cpu) (range : Range) : Smp :=
  if range.size = 0 ∨ range.size > 0xFFFFFFFFFFFFFFFF - range.address ∨
      range.address + range.size > 0xFFFFFFFFFFFFFFFF - 4095 then s
  else if s.call cpu = .idle ∧ online cpu then setCall s cpu (.waiting range) else s

def apic_broadcast_fixed (s : Smp) (cpu : Cpu) : Smp :=
  { s with pending := fun c => if c ≠ cpu ∧ online c then s.pending c + 1 else s.pending c }

def shootdown_step (s : Smp) (cpu : Cpu) (late lost : Bool) : Smp :=
  match s.call cpu with
  | .idle => s
  | .waiting range =>
    if s.tlb_lock.isSome then s else setCall { s with tlb_lock := some cpu } cpu (.locked range)
  | .locked range => setCall { s with tlb_address := range.address } cpu (.addressed range)
  | .addressed range => setCall { s with tlb_size := range.size } cpu (.stored range s.log.length)
  | .stored range mark => setCall { s with tlb_acknowledged := 0 } cpu (.zeroed range mark)
  | .zeroed range mark =>
    let expected := smp_online_count online - 1
    if expected = 0 then setCall s cpu (.sent .invalidate range mark expected)
    else if late then setCall (if lost then s else apic_broadcast_fixed online s cpu) cpu .failed
    else setCall (apic_broadcast_fixed online s cpu) cpu (.sent .invalidate range mark expected)
  | .sent .invalidate range mark expected =>
    setCall { s with log := s.log ++ [⟨cpu, range⟩] } cpu (.sent .wait range mark expected)
  | .sent .wait range mark expected =>
    if late ∨ ¬ s.tlb_acknowledged < expected then setCall s cpu (.sent .unlock range mark expected) else s
  | .sent .unlock range mark expected =>
    setCall { s with tlb_lock := none } cpu (.sent .compare range mark expected)
  | .sent .compare _ _ _ => setCall s cpu .idle
  | .failed => setCall { s with tlb_lock := none } cpu .idle

def returned (s : Smp) (cpu : Cpu) : Option Int :=
  match s.call cpu with
  | .sent .compare _ _ expected => some (if s.tlb_acknowledged = expected then 0 else -1)
  | .failed => some (-1)
  | _ => none

def smp_tlb_ipi (s : Smp) (cpu : Cpu) : Smp :=
  let goesTo handler := { s with handler := Function.update s.handler cpu handler }
  match s.handler cpu with
  | .idle =>
    if s.pending cpu = 0 then s
    else { goesTo .entered with pending := Function.update s.pending cpu (s.pending cpu - 1) }
  | .entered => goesTo (.gotAddress s.tlb_address)
  | .gotAddress address => goesTo (.gotRange ⟨address, s.tlb_size⟩)
  | .gotRange range => { goesTo .invalidated with log := s.log ++ [⟨cpu, range⟩] }
  | .invalidated => { goesTo .idle with tlb_acknowledged := s.tlb_acknowledged + 1 }

def Smp.step (s : Smp) : Op → Smp
  | .call cpu range => smp_tlb_shootdown online s cpu range
  | .proceed cpu late lost => shootdown_step online s cpu late lost
  | .handle cpu => smp_tlb_ipi s cpu

end

def initial : Smp where
  tlb_lock := none
  tlb_address := 0
  tlb_size := 0
  tlb_acknowledged := 0
  pending _ := 0
  handler _ := .idle
  call _ := .idle
  log := []

end mvh.smp
