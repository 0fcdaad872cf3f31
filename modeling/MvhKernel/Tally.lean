-- How many entries of a table have a given value, and what a change of one entry does to
-- these numbers and to the machine counters that follow them.
import Mathlib.Algebra.BigOperators.Group.Finset.Piecewise
import Mathlib.Data.Fintype.Card

namespace tally

variable {α β : Type*} [Fintype α] [DecidableEq β]

def count (f : α → β) (b : β) : Nat := (Finset.univ.filter fun i => f i = b).card

theorem count_le (f : α → β) (b : β) : count f b ≤ Fintype.card α := Finset.card_filter_le _ _

theorem count_pos {f : α → β} {b : β} {i : α} (h : f i = b) : 0 < count f b :=
  Finset.card_pos.mpr ⟨i, Finset.mem_filter.mpr ⟨Finset.mem_univ i, h⟩⟩

theorem card_ne (f : α → β) (b : β) :
    (Finset.univ.filter fun i => f i ≠ b).card + count f b = Fintype.card α := by
  rw [Nat.add_comm]
  exact Finset.card_filter_add_card_filter_not _

theorem count_update [DecidableEq α] (f : α → β) (i : α) (b c : β) :
    count (Function.update f i b) c + (if f i = c then 1 else 0) =
      count f c + (if b = c then 1 else 0) := by
  have hs (g : α → β) : (if g i = c then 1 else 0) +
      ∑ j ∈ Finset.univ.erase i, (if g j = c then 1 else 0) = count g c := by
    grind [count, Finset.card_filter, Finset.add_sum_erase]
  grind [Function.update_of_ne, Function.update_self, Finset.sum_congr]

theorem count_move {γ : Type*} [DecidableEq α] (f : α → γ) (g : γ → β) (i : α) (b : γ) (c : β) :
    count (fun j => g (Function.update f i b j)) c + (if g (f i) = c then 1 else 0) =
      count (fun j => g (f j)) c + (if g b = c then 1 else 0) := by
  have hc : (fun j => g (Function.update f i b j)) =
      Function.update (fun j => g (f j)) i (g b) := Function.comp_update g f i b
  grind [count_update]

theorem count_lt {f : α → β} {b : β} {i : α} (h : f i ≠ b) : count f b < Fintype.card α := by
  have hr := card_ne f b
  have hp : 0 < (Finset.univ.filter fun j => f j ≠ b).card :=
    Finset.card_pos.mpr ⟨i, Finset.mem_filter.mpr ⟨Finset.mem_univ i, h⟩⟩
  omega

/-! ## Counters -/

theorem toNat_sub_one {n : UInt32} (h : 0 < n.toNat) : (n - 1).toNat = n.toNat - 1 :=
  UInt32.toNat_sub_of_le _ _ (UInt32.le_iff_toNat_le.mpr h)

theorem toNat_add_one {n : UInt32} (h : n.toNat + 1 < 2 ^ 32) : (n + 1).toNat = n.toNat + 1 := by
  rw [UInt32.toNat_add]
  exact Nat.mod_eq_of_lt h

theorem toNat_add_neg_one {n : UInt32} (h : 0 < n.toNat) : (n + (-1)).toNat = n.toNat - 1 := by
  have hn : (-1 : UInt32).toNat = 2 ^ 32 - 1 := rfl
  have hlt := n.toNat_lt
  rw [UInt32.toNat_add, hn]
  omega

theorem eq_of_ofNat_eq {a b : Nat} (h : UInt32.ofNat a = UInt32.ofNat b) (hle : a ≤ b)
    (hlt : b < a + 2 ^ 32) : a = b := by
  have hm : a % 2 ^ 32 = b % 2 ^ 32 := by grind [UInt32.toNat_ofNat']
  omega

theorem ofNat_succ (n : Nat) : UInt32.ofNat (n + 1) = UInt32.ofNat n + 1 := UInt32.ofNat_add n 1

end tally
