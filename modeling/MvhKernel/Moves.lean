-- `mvh_mem_move` of the utilities.
import MvhKernel.FlatMemory

open flat_memory

namespace mvh.util

/-! ## The function -/

theorem toNat_succ {index size : UInt64} (h : index < size) : (index + 1).toNat = index.toNat + 1 := by
  have hlt := UInt64.lt_iff_toNat_lt.mp h
  have hs := size.toNat_lt
  rw [UInt64.toNat_add]
  exact Nat.mod_eq_of_lt (by show index.toNat + 1 < _; omega)

theorem toNat_pred {index : UInt64} (h : index ≠ 0) : (index - 1).toNat + 1 = index.toNat := by
  have hp : (1 : UInt64).toNat ≤ index.toNat := Nat.pos_of_ne_zero fun h0 => h (UInt64.toNat_inj.mp h0)
  rw [UInt64.toNat_sub_of_le _ _ (UInt64.le_iff_toNat_le.mpr hp)]
  exact Nat.sub_add_cancel hp

def moveByte (m : Mem) (target input index : UInt64) : Mem :=
  setByte m (target + index).toNat (m (input + index).toNat)

def moveUp (m : Mem) (target input size index : UInt64) : Mem :=
  if index < size then moveUp (moveByte m target input index) target input size (index + 1) else m
termination_by size.toNat - index.toNat
decreasing_by
  rename_i h
  have hlt := UInt64.lt_iff_toNat_lt.mp h
  have hnext := toNat_succ h
  omega

def moveDown (m : Mem) (target input index : UInt64) : Mem :=
  if index ≠ 0 then moveDown (moveByte m target input (index - 1)) target input (index - 1) else m
termination_by index.toNat
decreasing_by
  rename_i h
  exact Nat.lt_of_succ_le (toNat_pred h).le

def mvh_mem_move (m : Mem) (destination source size : UInt64) : UInt64 × Mem :=
  if (destination = 0 ∨ source = 0) ∧ size ≠ 0 then (0, m)
  else if size = 0 then (destination, m)
  else if destination > source ∧ destination < source + size then
    (destination, moveDown m destination source size)
  else (destination, moveUp m destination source size 0)

/-! ## The loops -/

def copied (m : Mem) (d s low high : Nat) : Mem :=
  fun x => if d + low ≤ x ∧ x < d + high then m (s + (x - d)) else m x

theorem copied_outside (m : Mem) {d s low hg x : Nat} (h : x < d + low ∨ d + hg ≤ x) :
    copied m d s low hg x = m x :=
  if_neg (by omega)

theorem copied_same (m : Mem) (d s low : Nat) : copied m d s low low = m :=
  funext fun _ => copied_outside m (by omega)

theorem copied_above (m : Mem) (d s : Nat) {low hg : Nat} (h : low ≤ hg) :
    setByte (copied m d s low hg) (d + hg) (m (s + hg)) = copied m d s low (hg + 1) := by
  funext x
  unfold setByte copied
  grind

theorem copied_below (m : Mem) (d s : Nat) {low high : Nat} (h : low < high) :
    setByte (copied m d s (low + 1) high) (d + low) (m (s + low)) = copied m d s low high := by
  funext x
  unfold setByte copied
  grind

section
variable {m : Mem} {target input size : UInt64} (htarget : target.toNat + size.toNat ≤ 2 ^ 64)
  (hinput : input.toNat + size.toNat ≤ 2 ^ 64)
include htarget hinput

theorem moveByte_eq (m : Mem) {index : UInt64} (h : index.toNat < size.toNat) :
    moveByte m target input index =
      setByte m (target.toNat + index.toNat) (m (input.toNat + index.toNat)) := by
  unfold moveByte
  grind

theorem moveUp_eq (hup : target.toNat ≤ input.toNat ∨ input.toNat + size.toNat ≤ target.toNat)
    (index : UInt64) (hi : index.toNat ≤ size.toNat) :
    moveUp (copied m target.toNat input.toNat 0 index.toNat) target input size index =
      copied m target.toNat input.toNat 0 size.toNat := by
  rw [moveUp]
  by_cases h : index < size
  · have hlt := UInt64.lt_iff_toNat_lt.mp h
    have hn := toNat_succ h
    rw [if_pos h, moveByte_eq htarget hinput _ hlt, copied_outside m (by omega),
      copied_above m _ _ (Nat.zero_le _), ← hn]
    exact moveUp_eq hup (index + 1) (by omega)
  grind
termination_by size.toNat - index.toNat
decreasing_by omega

theorem moveDown_eq (hd : input.toNat < target.toNat) (index : UInt64) (hi : index.toNat ≤ size.toNat) :
    moveDown (copied m target.toNat input.toNat index.toNat size.toNat) target input index =
      copied m target.toNat input.toNat 0 size.toNat := by
  rw [moveDown]
  by_cases h : index ≠ 0
  · have hp := toNat_pred h
    rw [if_pos h, moveByte_eq htarget hinput _ (by omega), copied_outside m (by omega), ← hp,
      copied_below m _ _ (by omega)]
    exact moveDown_eq hd (index - 1) (by omega)
  · obtain rfl : index = 0 := not_not.mp h
    rw [if_neg h]
    rfl
termination_by index.toNat
decreasing_by omega

end

theorem mvh_mem_move_eq (m : Mem) {d s size : UInt64} (hd : d ≠ 0)
    (hsr : s ≠ 0) (htarget : d.toNat + size.toNat ≤ 2 ^ 64)
    (hinput : s.toNat + size.toNat ≤ 2 ^ 64) :
    mvh_mem_move m d s size =
      (d, copied m d.toNat s.toNat 0 size.toNat) := by
  have hn : ¬ ((d = 0 ∨ s = 0) ∧ size ≠ 0) := fun h => h.1.elim hd hsr
  unfold mvh_mem_move
  rw [if_neg hn]
  by_cases hs : size = 0
  · rw [if_pos hs, hs]
    exact congrArg _ (copied_same m _ _ 0).symm
  · rw [if_neg hs]
    split
    next hdw =>
      have hm := moveDown_eq (m := m) htarget hinput (UInt64.lt_iff_toNat_lt.mp hdw.1) size (Nat.le_refl _)
      grind [copied_same]
    next hnt =>
      have hup : d.toNat ≤ s.toNat ∨ s.toNat + size.toNat ≤ d.toNat := by
        grind
      have hm := moveUp_eq (m := m) htarget hinput hup 0 (Nat.zero_le _)
      grind [UInt64.toNat_zero, copied_same]

/-- Each byte of the destination is the old byte of the source, and no other byte changes. -/
theorem the_move_is_a_snapshot (m : Mem) (destination source size : UInt64) (hdestination : destination ≠ 0)
    (hsource : source ≠ 0) (htarget : destination.toNat + size.toNat ≤ 2 ^ 64)
    (hinput : source.toNat + size.toNat ≤ 2 ^ 64) :
    (∀ i < size.toNat,
        (mvh_mem_move m destination source size).2 (destination.toNat + i) = m (source.toNat + i)) ∧
      ∀ x, x < destination.toNat ∨ destination.toNat + size.toNat ≤ x →
        (mvh_mem_move m destination source size).2 x = m x := by
  rw [mvh_mem_move_eq m hdestination hsource htarget hinput]
  refine ⟨fun i hi => ?_, fun x hx => copied_outside m hx⟩
  show (if _ then _ else _) = _
  rw [if_pos (by omega), Nat.add_sub_cancel_left]

/-- Four bytes move up by two, over themselves. -/
theorem a_move_over_itself :
    (mvh_mem_move UInt8.ofNat 3 1 4).2 5 = 3 ∧ (mvh_mem_move UInt8.ofNat 3 1 4).2 2 = 2 := by
  obtain ⟨hmoved, hkept⟩ :=
    the_move_is_a_snapshot UInt8.ofNat 3 1 4 (by decide) (by decide) (by decide) (by decide)
  exact ⟨hmoved 2 (by decide), hkept 2 (.inl (by decide))⟩

end mvh.util
