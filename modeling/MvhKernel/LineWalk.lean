-- A straight walk over a grid, from a corner of a box to the opposite one.
import Mathlib.Data.Prod.Basic
import Mathlib.Logic.Function.Iterate
import Mathlib.Tactic.Linarith
import Mathlib.Tactic.Ring

namespace line_walk

/-! ## The walk -/

def error (w h : Nat) (p : Nat × Nat) : Int := (p.2 + 1) * w - (p.1 + 1) * h

/-- One step. -/
def next (w h : Nat) (p : Nat × Nat) : Nat × Nat :=
  (if -(h : Int) ≤ error w h p * 2 then p.1 + 1 else p.1,
    if error w h p * 2 ≤ w then p.2 + 1 else p.2)

def walk (w h steps : Nat) : Nat × Nat := (next w h)^[steps] (0, 0)

theorem walk_succ (w h steps : Nat) : walk w h (steps + 1) = next w h (walk w h steps) :=
  Function.iterate_succ_apply' _ _ _

theorem error_next (w h : Nat) (p : Nat × Nat) :
    error w h (next w h p) =
      error w h p - (if -(h : Int) ≤ error w h p * 2 then (h : Int) else 0)
        + (if error w h p * 2 ≤ w then (w : Int) else 0) := by
  unfold next
  generalize error w h p * 2 = twice
  unfold error
  by_cases hx : -(h : Int) ≤ twice
  · by_cases hy : twice ≤ w
    · simp only [if_pos hx, if_pos hy]
      push_cast
      ring
    · simp only [if_pos hx, if_neg hy]
      push_cast
      ring
  · by_cases hy : twice ≤ w
    · simp only [if_neg hx, if_pos hy]
      push_cast
      ring
    omega

theorem next_moves (w h : Nat) (p : Nat × Nat) :
    (p.1 ≤ (next w h p).1 ∧ (next w h p).1 ≤ p.1 + 1) ∧
      (p.2 ≤ (next w h p).2 ∧ (next w h p).2 ≤ p.2 + 1) := by
  unfold next
  grind

/-! ## The two sides of the box change places -/

theorem error_swap (w h : Nat) (p : Nat × Nat) : error h w p.swap = -error w h p := by
  unfold error
  simp

theorem next_swap (w h : Nat) (p : Nat × Nat) : next h w p.swap = (next w h p).swap := by
  have hx : (-(w : Int) ≤ error h w p.swap * 2) ↔ error w h p * 2 ≤ w := by
    rw [error_swap]
    omega
  grind [error_swap, next, Prod.fst_swap, Prod.snd_swap, Prod.swap_prod_mk]

theorem walk_swap (w h steps : Nat) : walk h w steps = (walk w h steps).swap := by
  induction steps with
  | zero => rfl
  | succ steps ih => rw [walk_succ, walk_succ, ih, next_swap]

/-! ## A box that is at least as wide as it is high -/

theorem walk_of_wide {w h : Nat} (hw : h ≤ w) (steps : Nat) :
    (walk w h steps).1 = steps ∧
      -(h : Int) ≤ error w h (walk w h steps) * 2 ∧
      error w h (walk w h steps) * 2 ≤ 3 * w - 2 * h := by
  induction steps with
  | zero =>
    have hs : error w h (walk w h 0) = w - h := by
      simp [error, walk]
    rw [hs]
    refine ⟨rfl, ?_, ?_⟩ <;> omega
  | succ steps ih =>
    obtain ⟨hx, hl, hh⟩ := ih
    have he := error_next w h (walk w h steps)
    rw [if_pos hl] at he
    rw [walk_succ]
    refine ⟨?_, ?_⟩
    · show (if _ then _ else _) = _
      rw [if_pos hl, hx]
    · split at he <;> constructor <;> omega

theorem height_of_wide {w h : Nat} (hw : h ≤ w) (steps : Nat) :
    2 * ((walk w h steps).2 * w : Int) ≤ w + 2 * (steps * h) ∧
      2 * (steps * h : Int) + h ≤ 2 * ((walk w h steps).2 * w) + 2 * w := by
  obtain ⟨hx, hl, hh⟩ := walk_of_wide hw steps
  grind [error]

theorem walk_inside_of_wide {w h steps : Nat} (hw : h ≤ w) (hs : steps ≤ w) :
    (walk w h steps).2 ≤ h := by
  rcases Nat.eq_zero_or_pos w with rfl | hps
  · rw [Nat.le_zero.mp hs]
    exact Nat.zero_le h
  obtain ⟨hl, -⟩ := height_of_wide hw steps
  generalize (walk w h steps).2 = y at hl
  by_contra hy
  have hp : ((h + 1) * w : Int) ≤ y * w := by
    exact_mod_cast Nat.mul_le_mul_right w (by omega : h + 1 ≤ y)
  have hd : (steps * h : Int) ≤ w * h := by
    exact_mod_cast Nat.mul_le_mul_right h hs
  grind

theorem walk_end_of_wide {w h : Nat} (hw : h ≤ w) : walk w h w = (w, h) := by
  have hx := (walk_of_wide hw w).1
  have hle := walk_inside_of_wide hw (Nat.le_refl w)
  obtain ⟨-, hl⟩ := height_of_wide hw w
  refine Prod.ext hx (Nat.le_antisymm hle ?_)
  generalize (walk w h w).2 = y at hl hle
  show h ≤ y
  by_contra hy
  have hp : ((y + 1) * w : Int) ≤ h * w := by
    exact_mod_cast Nat.mul_le_mul_right w (by omega : y + 1 ≤ h)
  grind

/-! ## Every box -/

theorem error_bounds (w h steps : Nat) :
    -(3 * max w h : Int) ≤ error w h (walk w h steps) * 2 ∧
      error w h (walk w h steps) * 2 ≤ 3 * max w h := by
  rcases Nat.le_total h w with hw | ht
  · grind [walk_of_wide]
  grind [walk_swap, error_swap, walk_of_wide]

theorem walk_inside {w h steps : Nat} (hs : steps ≤ max w h) :
    (walk w h steps).1 ≤ w ∧ (walk w h steps).2 ≤ h := by
  rcases Nat.le_total h w with hw | ht
  · rw [max_eq_left hw] at hs
    refine ⟨?_, walk_inside_of_wide hw hs⟩
    grind [walk_of_wide]
  · rw [max_eq_right ht] at hs
    rw [walk_swap h w]
    refine ⟨walk_inside_of_wide ht hs, ?_⟩
    grind [walk_of_wide]

theorem walk_end (w h : Nat) : walk w h (max w h) = (w, h) := by
  rcases Nat.le_total h w with hw | ht
  · grind [walk_end_of_wide]
  grind [walk_swap, walk_end_of_wide]

theorem walk_ne_end {w h steps : Nat} (hs : steps < max w h) : walk w h steps ≠ (w, h) := by
  intro he
  rcases Nat.le_total h w with hw | ht
  · grind [walk_of_wide]
  · have hy := (walk_of_wide ht steps).1
    grind [walk_swap, Prod.swap_prod_mk]

end line_walk
