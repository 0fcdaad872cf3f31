-- Bit fields of a word (`util.c`): a mask, extraction and insertion, for every offset and
-- width.
import MvhKernel.Parsers

namespace mvh.util

/-! ## The functions -/

def mvh_mask_range64 (offset width : UInt32) : UInt64 :=
  if offset ≥ 64 ∨ width = 0 then 0
  else
    let width := if width > 64 - offset then 64 - offset else width
    (if width = 64 then MVH_U64_MAX else (1 <<< width.toUInt64) - 1) <<< offset.toUInt64

def mvh_extract_bits64 (value : UInt64) (offset width : UInt32) : UInt64 :=
  if offset ≥ 64 then 0 else (value &&& mvh_mask_range64 offset width) >>> offset.toUInt64

def mvh_insert_bits64 (original field : UInt64) (offset width : UInt32) : UInt64 :=
  let mask := mvh_mask_range64 offset width
  if offset ≥ 64 then original else (original &&& ~~~mask) ||| ((field <<< offset.toUInt64) &&& mask)

/-! ## Bits -/

def bit (word : UInt64) (i : Nat) : Bool := word.toNat.testBit i

theorem bit_beyond (w : UInt64) {i : Nat} (h : 64 ≤ i) : bit w i = false :=
  Nat.testBit_lt_two_pow (w.toNat_lt.trans_le (Nat.pow_le_pow_right (by decide) h))

theorem eq_of_bits {v w : UInt64} (h : ∀ i < 64, bit v i = bit w i) : v = w := by
  refine UInt64.toNat_inj.mp (Nat.eq_of_testBit_eq fun i => ?_)
  by_cases hi : i < 64
  · exact h i hi
  · exact (bit_beyond v (Nat.not_lt.mp hi)).trans (bit_beyond w (Nat.not_lt.mp hi)).symm

theorem bit_and (v w : UInt64) (i : Nat) : bit (v &&& w) i = (bit v i && bit w i) := by
  unfold bit
  rw [UInt64.toNat_and, Nat.testBit_and]

theorem bit_or (v w : UInt64) (i : Nat) : bit (v ||| w) i = (bit v i || bit w i) := by
  unfold bit
  rw [UInt64.toNat_or, Nat.testBit_or]

theorem bit_not (w : UInt64) {i : Nat} (h : i < 64) : bit (~~~w) i = !bit w i := by
  show (~~~w.toBitVec).getLsbD i = _
  rw [BitVec.getLsbD_not, decide_eq_true h, Bool.true_and]
  rfl

section
variable {offset : UInt32} (hoffset : offset.toNat < 64)
include hoffset

theorem toNat_shift : offset.toUInt64.toNat % 64 = offset.toNat := by
  rw [UInt32.toNat_toUInt64, Nat.mod_eq_of_lt hoffset]

theorem bit_shiftLeft (w : UInt64) {i : Nat} (h : i < 64) :
    bit (w <<< offset.toUInt64) i = (decide (offset.toNat ≤ i) && bit w (i - offset.toNat)) := by
  unfold bit
  rw [UInt64.toNat_shiftLeft, toNat_shift hoffset, Nat.testBit_mod_two_pow, Nat.testBit_shiftLeft,
    decide_eq_true h, Bool.true_and]

theorem bit_shiftRight (w : UInt64) (i : Nat) : bit (w >>> offset.toUInt64) i = bit w (offset.toNat + i) := by
  unfold bit
  rw [UInt64.toNat_shiftRight, toNat_shift hoffset, Nat.testBit_shiftRight]

end

/-! ## The field -/

def clipped (offset width : UInt32) : Nat := min width.toNat (64 - offset.toNat)

def inField (offset width : UInt32) (i : Nat) : Bool :=
  decide (offset.toNat ≤ i ∧ i < offset.toNat + clipped offset width)

theorem lt_64_iff (offset : UInt32) : ¬ offset ≥ 64 ↔ offset.toNat < 64 := by
  rw [ge_iff_le, UInt32.le_iff_toNat_le]
  exact Nat.not_le

theorem toNat_ones {width : UInt32} (h : width.toNat ≤ 64) :
    (if width = 64 then MVH_U64_MAX else (1 <<< width.toUInt64) - 1).toNat = 2 ^ width.toNat - 1 := by
  by_cases hf : width = 64
  · rw [if_pos hf, hf]
    rfl
  · have hlt : width.toNat < 64 := Nat.lt_of_le_of_ne h fun h64 => hf (UInt32.toNat_inj.mp h64)
    have hp : 2 ^ width.toNat < 2 ^ 64 := Nat.pow_lt_pow_right (by decide) hlt
    have ho : ((1 : UInt64) <<< width.toUInt64).toNat = 2 ^ width.toNat := by
      rw [UInt64.toNat_shiftLeft, toNat_shift hlt, Nat.shiftLeft_eq]
      grind
    grind [UInt64.toNat_sub_of_le, UInt64.le_iff_toNat_le, Nat.two_pow_pos]

section
variable {offset : UInt32} (hoffset : offset.toNat < 64) (width : UInt32)
include hoffset

theorem toNat_clipped : (if width > 64 - offset then 64 - offset else width).toNat = clipped offset width := by
  have hr : (64 - offset).toNat = 64 - offset.toNat :=
    UInt32.toNat_sub_of_le _ _ (UInt32.le_iff_toNat_le.mpr hoffset.le)
  grind [UInt32.lt_iff_toNat_lt, Nat.min_eq_right, Nat.min_eq_left, clipped]

theorem bit_mask {i : Nat} (h : i < 64) : bit (mvh_mask_range64 offset width) i = inField offset width i := by
  unfold mvh_mask_range64
  by_cases hw : width = 0
  · have he : ¬ (offset.toNat ≤ i ∧ i < offset.toNat + clipped offset 0) := by
      show ¬ (_ ∧ _ < _ + min 0 _)
      omega
    rw [if_pos (.inr hw), hw, inField, decide_eq_false he]
    exact Nat.zero_testBit i
  · have ho := toNat_ones ((toNat_clipped hoffset width).trans_le ((Nat.min_le_right _ _).trans (Nat.sub_le _ _)))
    rw [if_neg (not_or.mpr ⟨(lt_64_iff offset).mpr hoffset, hw⟩), bit_shiftLeft hoffset _ h, bit, ho,
      toNat_clipped hoffset, Nat.testBit_two_pow_sub_one, inField, ← Bool.decide_and]
    grind

theorem bit_insert (o f : UInt64) {i : Nat} (h : i < 64) :
    bit (mvh_insert_bits64 o f offset width) i =
      if inField offset width i then bit f (i - offset.toNat) else bit o i := by
  unfold mvh_insert_bits64
  simp only
  rw [if_neg ((lt_64_iff offset).mpr hoffset), bit_or, bit_and, bit_and, bit_not _ h, bit_mask hoffset width h,
    bit_shiftLeft hoffset _ h]
  by_cases hin : inField offset width i = true
  · have hle : offset.toNat ≤ i := (of_decide_eq_true hin).1
    simp [hin, hle]
  · simp [hin]

theorem bit_extract (v : UInt64) (i : Nat) :
    bit (mvh_extract_bits64 v offset width) i =
      (decide (i < clipped offset width) && bit v (offset.toNat + i)) := by
  unfold mvh_extract_bits64
  rw [if_neg ((lt_64_iff offset).mpr hoffset), bit_shiftRight hoffset, bit_and, Bool.and_comm]
  by_cases h : offset.toNat + i < 64
  · have hp : inField offset width (offset.toNat + i) = decide (i < clipped offset width) :=
      decide_eq_decide.mpr ⟨fun hin => by omega, fun hlt => by omega⟩
    rw [bit_mask hoffset width h, hp]
  · rw [bit_beyond v (Nat.not_lt.mp h), Bool.and_false, Bool.and_false]

/-! ## The laws -/

theorem extract_insert (o f : UInt64) :
    (mvh_extract_bits64 (mvh_insert_bits64 o f offset width) offset width).toNat =
      f.toNat % 2 ^ clipped offset width := by
  refine Nat.eq_of_testBit_eq fun i => ?_
  rw [Nat.testBit_mod_two_pow]
  refine (bit_extract hoffset width _ i).trans ?_
  by_cases hi : i < clipped offset width
  · have hw : offset.toNat + i < 64 := by
      have hc : clipped offset width ≤ 64 - offset.toNat := Nat.min_le_right _ _
      omega
    have hin : inField offset width (offset.toNat + i) = true := decide_eq_true ⟨by omega, by omega⟩
    rw [bit_insert hoffset width _ _ hw, if_pos hin, Nat.add_sub_cancel_left]
    rfl
  · rw [decide_eq_false hi]
    rfl

theorem insert_extract (original : UInt64) :
    mvh_insert_bits64 original (mvh_extract_bits64 original offset width) offset width = original := by
  refine eq_of_bits fun i hi => ?_
  rw [bit_insert hoffset width _ _ hi]
  split
  next hin =>
    obtain ⟨hle, hlt⟩ := of_decide_eq_true hin
    have hc : i - offset.toNat < clipped offset width := by omega
    rw [bit_extract hoffset, decide_eq_true hc, Bool.true_and, Nat.add_sub_cancel' hle]
  next => rfl

theorem insert_insert (o f s : UInt64) :
    mvh_insert_bits64 (mvh_insert_bits64 o f offset width) s offset width =
      mvh_insert_bits64 o s offset width := by
  refine eq_of_bits fun i hi => ?_
  grind [bit_insert]

end

theorem empty_field (o f : UInt64) {offset width : UInt32} (h : 64 ≤ offset.toNat ∨ width = 0) :
    mvh_insert_bits64 o f offset width = o ∧ mvh_extract_bits64 o offset width = 0 := by
  by_cases hoffset : offset.toNat < 64
  · obtain rfl : width = 0 := h.resolve_left (Nat.not_le.mpr hoffset)
    have hc : clipped offset 0 = 0 := Nat.zero_min _
    constructor
    · refine eq_of_bits fun i hi => ?_
      have ho : ¬ inField offset 0 i = true := by
        intro hin
        have hp := of_decide_eq_true hin
        omega
      rw [bit_insert hoffset 0 _ _ hi, if_neg ho]
    · refine eq_of_bits fun i _ => ?_
      rw [bit_extract hoffset, hc, decide_eq_false (Nat.not_lt_zero i)]
      exact (Nat.zero_testBit i).symm
  · have hge : offset ≥ 64 := not_not.mp fun hlt => hoffset ((lt_64_iff offset).mp hlt)
    grind [mvh_insert_bits64, mvh_extract_bits64]

/-- Insertion and extraction are a lens on the bits of the field, for every offset and width. -/
theorem the_fields_obey_the_lens_laws (original field second : UInt64) (offset width : UInt32) :
    (offset.toNat < 64 →
      (mvh_extract_bits64 (mvh_insert_bits64 original field offset width) offset width).toNat =
          field.toNat % 2 ^ min width.toNat (64 - offset.toNat) ∧
        ∀ i, ¬ (offset.toNat ≤ i ∧ i < offset.toNat + min width.toNat (64 - offset.toNat)) →
          (mvh_insert_bits64 original field offset width).toNat.testBit i = original.toNat.testBit i) ∧
      mvh_insert_bits64 original (mvh_extract_bits64 original offset width) offset width = original ∧
      mvh_insert_bits64 (mvh_insert_bits64 original field offset width) second offset width =
        mvh_insert_bits64 original second offset width ∧
      (64 ≤ offset.toNat ∨ width = 0 →
        mvh_insert_bits64 original field offset width = original ∧
          mvh_extract_bits64 original offset width = 0) := by
  refine ⟨fun hoffset => ⟨extract_insert hoffset width original field, fun i hout => ?_⟩, ?_, ?_,
    empty_field original field⟩
  · by_cases hi : i < 64
    · refine (bit_insert hoffset width original field hi).trans (if_neg fun hin => ?_)
      exact hout (of_decide_eq_true hin)
    · exact (bit_beyond _ (Nat.not_lt.mp hi)).trans (bit_beyond _ (Nat.not_lt.mp hi)).symm
  · by_cases hoffset : offset.toNat < 64
    · exact insert_extract hoffset width original
    · exact (empty_field _ _ (.inl (Nat.not_lt.mp hoffset))).1
  · by_cases hoffset : offset.toNat < 64
    · exact insert_insert hoffset width original field second
    · have hempty : 64 ≤ offset.toNat ∨ width = 0 := .inl (Nat.not_lt.mp hoffset)
      rw [(empty_field original field hempty).1]

end mvh.util
