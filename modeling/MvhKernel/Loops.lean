-- Counted loops that can be left early.
import Mathlib.Data.Nat.Notation

namespace loops

/-- How a turn ends: the next one follows, the loop is left, it is left because
something is wrong, or it never ends. -/
inductive Flow where
  | next
  | stop
  | fail
  | hang
  deriving DecidableEq

def loop {σ : Type} (turn : Nat → σ → σ × Flow) : Nat → σ → σ × Flow
  | 0, s => (s, .next)
  | n + 1, s =>
    match loop turn n s with
    | (s, .next) => turn n s
    | left => left

/-- A loop whose counter cannot reach its bound: with no turn that leaves it, it begins
again when the counter wraps. -/
def wrappingLoop {σ : Type} (turn : Nat → σ → σ × Flow) (range bound : Nat) (s : σ) : σ × Flow :=
  if bound < range then loop turn bound s
  else
    match loop turn range s with
    | (s, .next) => (s, .hang)
    | left => left

section
variable {σ : Type} {turn : Nat → σ → σ × Flow} {keep : σ → Prop}

variable (keep) in
theorem loop_keeps {n : Nat} {s : σ} (h : keep s) (ht : ∀ i < n, ∀ s, keep s → keep (turn i s).1) :
    keep (loop turn n s).1 := by
  induction n with
  | zero => exact h
  | succ n ih =>
    have hl := ih fun i hi => ht i (by omega)
    grind [loop]

variable (keep) in
theorem wrappingLoop_keeps {r b : Nat} {s : σ} (h : keep s)
    (ht : ∀ i < b, ∀ s, keep s → keep (turn i s).1) :
    keep (wrappingLoop turn r b s).1 := by
  unfold wrappingLoop
  split
  · exact loop_keeps keep h ht
  · have hl : keep (loop turn r s).1 := loop_keeps keep h fun i hi => ht i (by omega)
    grind

/-! ## Loops that run to their end -/

theorem loop_ne_stop (ht : ∀ i s, (turn i s).2 ≠ .stop) (n : Nat) (s : σ) : (loop turn n s).2 ≠ .stop := by
  induction n with
  | zero => exact Flow.noConfusion
  | succ n ih => grind [loop]

theorem wrappingLoop_ne_stop (ht : ∀ i s, (turn i s).2 ≠ .stop) (r b : Nat) (s : σ) :
    (wrappingLoop turn r b s).2 ≠ .stop := by
  unfold wrappingLoop
  split
  · exact loop_ne_stop ht b s
  · split
    · exact Flow.noConfusion
    · exact loop_ne_stop ht r s

variable {ρ : Type} {note : Nat → σ → List ρ}

end

end loops
