-- Words whose bits belong to fields: a field is a mask, a word lies in a field when the
-- mask keeps it, and fields without a common bit do not disturb each other.
import Mathlib.Data.Nat.Bitwise

namespace masks

theorem nat_and_mask (x : Nat) {low hg : Nat} (h : low ≤ hg) :
    x &&& (2 ^ hg - 2 ^ low) = x % 2 ^ hg / 2 ^ low * 2 ^ low := by
  have hm : 2 ^ hg - 2 ^ low = (2 ^ (hg - low) - 1) * 2 ^ low := by
    rw [Nat.sub_mul, ← Nat.pow_add, Nat.sub_add_cancel h, Nat.one_mul]
  apply Nat.eq_of_testBit_eq
  grind

theorem or_and (a b c : UInt64) : (a ||| b) &&& c = (a &&& c) ||| (b &&& c) := by
  apply UInt64.toNat_inj.mp
  simp only [UInt64.toNat_and, UInt64.toNat_or]
  exact Nat.and_or_distrib_right _ _ _

theorem or_and_self (a b : UInt64) : (a ||| b) &&& a = a := by
  apply UInt64.toNat_inj.mp
  apply Nat.eq_of_testBit_eq
  intro i
  rw [UInt64.toNat_and, UInt64.toNat_or, Nat.testBit_and, Nat.testBit_or]
  grind

def In (a mask : UInt64) : Prop := a &&& mask = a

instance (a mask : UInt64) : Decidable (In a mask) := inferInstanceAs (Decidable (_ = _))

section
variable {a b mask other : UInt64}

theorem In.mono (h : In a mask) (hm : In mask other) : In a other := by
  unfold In at *
  rw [← h, UInt64.and_assoc, hm]

theorem In.or (ha : In a mask) (hb : In b mask) : In (a ||| b) mask := by
  unfold In at *
  rw [or_and, ha, hb]

theorem in_and (a mask : UInt64) : In (a &&& mask) mask := by
  unfold In
  rw [UInt64.and_assoc, UInt64.and_self]

theorem In.apart (ha : In a mask) (h : mask &&& other = 0) : a &&& other = 0 := by
  rw [← ha, UInt64.and_assoc, h, UInt64.and_zero]

theorem or_and_left (ha : In a mask) (hb : b &&& mask = 0) : (a ||| b) &&& mask = a := by
  rw [or_and, ha, hb, UInt64.or_zero]

theorem or_and_of_in (a : UInt64) (h : In mask b) : (a ||| b) &&& mask = mask := by
  rw [← h, ← UInt64.and_assoc, UInt64.and_comm _ mask, UInt64.and_assoc, UInt64.or_comm, or_and_self]

theorem or_and_right (ha : a &&& mask = 0) : (a ||| b) &&& mask = b &&& mask := by
  rw [or_and, ha, UInt64.zero_or]

end

end masks
