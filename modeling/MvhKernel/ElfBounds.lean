-- Where the loader writes.
import MvhKernel.Elf

open flat_memory loops ranges

namespace mvh.module

/-! ## Alignment -/

theorem toNat_max_sub (v : UInt64) : (0xFFFFFFFFFFFFFFFF - v).toNat = 2 ^ 64 - 1 - v.toNat := by
  have hm : (0xFFFFFFFFFFFFFFFF : UInt64).toNat = 2 ^ 64 - 1 := by decide
  grind

def Aligns (alignment : UInt64) : Prop := ∃ k ≤ 12, alignment.toNat = 2 ^ k

theorem aligns_of_checks {alignment : UInt64} (hz : alignment ≠ 0)
    (hp : alignment &&& (alignment - 1) = 0) (hle : alignment ≤ 4096) : Aligns alignment := by
  have hps : alignment.toNat ≠ 0 := by grind
  have hs : (alignment - 1).toNat = alignment.toNat - 1 :=
    UInt64.toNat_sub_of_le _ _ (UInt64.le_iff_toNat_le.mpr (by simp; omega))
  have hn : alignment.toNat &&& (alignment.toNat - 1) = 0 := by
    rw [← hs, ← UInt64.toNat_and, hp]
    rfl
  obtain ⟨k, hk⟩ := (Nat.and_sub_one_eq_zero_iff_isPowerOfTwo hps).mp hn
  refine ⟨k, ?_, hk⟩
  have hb : 2 ^ k ≤ 2 ^ 12 := by
    rw [← hk]
    exact UInt64.le_iff_toNat_le.mp hle
  exact (Nat.pow_le_pow_iff_right (by omega)).mp hb

section
variable {alignment : UInt64} (h : Aligns alignment)

include h

theorem Aligns.pos : 0 < alignment.toNat := by
  obtain ⟨k, _, hk⟩ := h
  rw [hk]
  exact Nat.two_pow_pos k

theorem Aligns.le : alignment.toNat ≤ 4096 := by
  obtain ⟨k, hle, hk⟩ := h
  rw [hk]
  exact Nat.pow_le_pow_right (by omega) hle

theorem Aligns.toNat_sub_one : (alignment - 1).toNat = alignment.toNat - 1 :=
  UInt64.toNat_sub_of_le _ _ (UInt64.le_iff_toNat_le.mpr h.pos)

theorem Aligns.is_power : mvh_is_power_of_two_u64 alignment = true := by
  have hp := h.pos
  have hs := h.toNat_sub_one
  have hn : alignment &&& (alignment - 1) = 0 := by
    obtain ⟨k, _, hk⟩ := h
    grind [UInt64.toNat_and, Nat.and_two_pow_sub_one_eq_mod, Nat.mod_self, UInt64.toNat_inj.mp]
  have hz : alignment ≠ 0 := by
    rintro rfl
    exact absurd hp (by decide)
  simp [mvh_is_power_of_two_u64, hn, hz]

theorem align_up_toNat (v : UInt64) :
    (mvh_align_up_u64 v alignment).toNat =
      if v.toNat + (alignment.toNat - 1) < 2 ^ 64 then roundUp v.toNat alignment.toNat else 0 := by
  have hp := h.pos
  have hs := h.toNat_sub_one
  have hl : (0xFFFFFFFFFFFFFFFF - (alignment - 1)).toNat = 2 ^ 64 - 1 - (alignment.toNat - 1) := by
    rw [toNat_max_sub, hs]
  have hv := v.toNat_lt
  have ha := alignment.toNat_lt
  unfold mvh_align_up_u64
  rw [h.is_power, if_neg (by simp)]
  by_cases hf : v.toNat + (alignment.toNat - 1) < 2 ^ 64
  · have hn : ¬ v > 0xFFFFFFFFFFFFFFFF - (alignment - 1) := by grind
    dsimp only
    rw [if_neg hn, if_pos hf]
    obtain ⟨k, _, hk⟩ := h
    have hsm : (v + (alignment - 1)).toNat = v.toNat + (2 ^ k - 1) := by
      rw [UInt64.toNat_add, hs, Nat.mod_eq_of_lt hf, hk]
    rw [toNat_and_not (k := k) _ (by rw [hs, hk]), hsm, hk]
    rfl
  · have ho : v > 0xFFFFFFFFFFFFFFFF - (alignment - 1) := by grind
    dsimp only
    rw [if_pos ho, if_neg hf]
    rfl

end

/-! ## The layout -/

theorem checked_add_some {left right t : UInt64} (h : mvh_checked_add_u64 left right = some t) :
    left.toNat + right.toNat < 2 ^ 64 ∧ t = left + right := by
  unfold mvh_checked_add_u64 at h
  split at h
  · cases h
  next ha =>
    have hlt := right.toNat_lt
    rw [gt_iff_lt, UInt64.lt_iff_toNat_lt, toNat_max_sub] at ha
    exact ⟨by omega, (Option.some.inj h).symm⟩

section
variable {layout layout' : Layout} {index : Nat} {sec : Section}

theorem place_some (h : layout.place index sec = some layout') :
    ∃ start, start = mvh_align_up_u64 layout.allocation_size sec.alignmentOf ∧
      start.toNat + sec.size.toNat < 2 ^ 64 ∧ layout'.allocation_size = start + sec.size ∧
      layout'.offsets = Function.update layout.offsets index start := by
  unfold Layout.place at h
  generalize mvh_align_up_u64 layout.allocation_size sec.alignmentOf = start at h
  refine ⟨start, rfl, ?_⟩
  dsimp only at h
  split at h
  · cases h
  split at h
  · cases h
  next t ht =>
    obtain ⟨hlt, rfl⟩ := checked_add_some ht
    cases h
    exact ⟨hlt, rfl, rfl⟩

theorem noteSymbols_some (h : layout.noteSymbols index sec = some layout') :
    layout'.allocation_size = layout.allocation_size ∧ layout'.offsets = layout.offsets := by
  grind [Layout.noteSymbols]

theorem alignmentOf_ne_zero (sec : Section) : sec.alignmentOf ≠ 0 := by
  unfold Section.alignmentOf
  grind

theorem layout_section_some {image : Image} (h : layout_section image index layout = some layout')
    (hsc : image.sectionOf index = sec) :
    Aligns sec.alignmentOf ∧
      ((sec.allocated = true ∧ ∃ s, s = mvh_align_up_u64 layout.allocation_size sec.alignmentOf ∧
          s.toNat + sec.size.toNat < 2 ^ 64 ∧ layout'.allocation_size = s + sec.size ∧
          layout'.offsets = Function.update layout.offsets index s) ∨
        (sec.allocated = false ∧ layout'.allocation_size = layout.allocation_size ∧
          layout'.offsets = layout.offsets)) := by
  unfold layout_section at h
  rw [hsc] at h
  dsimp only at h
  split at h
  · cases h
  next hc =>
  have hal : Aligns sec.alignmentOf := by
    refine aligns_of_checks (alignmentOf_ne_zero sec) ?_ ?_
    · exact not_not.mp fun hne => hc (Or.inl hne)
    · grind
  refine ⟨hal, ?_⟩
  split at h
  · cases h
  split at h
  next ha =>
    split at h
    · cases h
    next p hp =>
      obtain ⟨hs, ho⟩ := noteSymbols_some h
      rw [hs, ho]
      exact Or.inl ⟨ha, place_some hp⟩
  next ha =>
    exact Or.inr ⟨Bool.eq_false_iff.mpr ha, noteSymbols_some h⟩

end

/-! ## How far the layout reaches -/

/-- The end of the first `count` sections in numbers that do not wrap. -/
def extent (image : Image) : Nat → Nat
  | 0 => 0
  | count + 1 =>
    let sec := image.sectionOf count
    if sec.allocated then roundUp (extent image count) sec.alignmentOf.toNat + sec.size.toNat
    else extent image count

def loaded (image : Image) (count : Nat) : Finset Nat :=
  (Finset.range count).filter fun index => (image.sectionOf index).allocated

def total (image : Image) (count : Nat) : Nat := ∑ index ∈ loaded image count, (image.sectionOf index).size.toNat

section
variable {image : Image} {count : Nat}

theorem mem_loaded {index : Nat} :
    index ∈ loaded image count ↔ index < count ∧ (image.sectionOf index).allocated = true := by
  simp [loaded]

theorem mem_loaded_succ {index : Nat} (h : index ≠ count ∨ (image.sectionOf count).allocated = false) :
    index ∈ loaded image (count + 1) ↔ index ∈ loaded image count := by
  rw [mem_loaded, mem_loaded]
  constructor
  · rintro ⟨hlt, hi⟩
    have hne : index ≠ count := by grind
    exact ⟨by omega, hi⟩
  grind

theorem extent_succ_of_allocated (h : (image.sectionOf count).allocated = true) :
    extent image (count + 1) =
      roundUp (extent image count) (image.sectionOf count).alignmentOf.toNat + (image.sectionOf count).size.toNat :=
  if_pos h

theorem extent_succ_of_not (h : (image.sectionOf count).allocated = false) :
    extent image (count + 1) = extent image count :=
  if_neg (by simp [h])

theorem total_succ_of_allocated (h : (image.sectionOf count).allocated = true) :
    total image (count + 1) = total image count + (image.sectionOf count).size.toNat := by
  have hi : loaded image (count + 1) = insert count (loaded image count) := by
    unfold loaded
    rw [Finset.range_add_one, Finset.filter_insert, if_pos h]
  have hn : count ∉ loaded image count := by
    intro hm
    have := (mem_loaded.mp hm).1
    omega
  grind [Finset.sum_insert, Nat.add_comm, total]

theorem total_succ_of_not (h : (image.sectionOf count).allocated = false) :
    total image (count + 1) = total image count := by
  have hs : loaded image (count + 1) = loaded image count := by
    simp [Finset.range_add_one, Finset.filter_insert, h, loaded]
  unfold total
  rw [hs]

end

/-- The layout has not wrapped: the sections follow one another. -/
structure Fitted (image : Image) (count : Nat) (layout : Layout) : Prop where
  size : layout.allocation_size.toNat = extent image count
  below : ∀ i ∈ loaded image count,
    (layout.offsets i).toNat + (image.sectionOf i).size.toNat ≤ layout.allocation_size.toNat
  ordered : ∀ i ∈ loaded image count, ∀ j ∈ loaded image count, i < j →
    (layout.offsets i).toNat + (image.sectionOf i).size.toNat ≤ (layout.offsets j).toNat
  packed : extent image count ≤ total image count + 4096 * count

/-- The layout has wrapped: the sections together are larger than the address space. -/
structure Wrapped (image : Image) (count : Nat) (layout : Layout) : Prop where
  extent : 2 ^ 64 ≤ extent image count
  packed : 2 ^ 64 + layout.allocation_size.toNat ≤ total image count + 4096 * (count + 1)

section
variable {image : Image} {count : Nat} {layout layout' : Layout}

theorem Fitted.skip (h : Fitted image count layout) (ha : (image.sectionOf count).allocated = false)
    (hs : layout'.allocation_size = layout.allocation_size) (ho : layout'.offsets = layout.offsets) :
    Fitted image (count + 1) layout' := by
  have hm {i : Nat} (hi : i ∈ loaded image (count + 1)) : i ∈ loaded image count :=
    (mem_loaded_succ (Or.inr ha)).mp hi
  have he := extent_succ_of_not ha
  constructor
  · rw [hs, he, h.size]
  · intro i hi
    rw [hs, ho]
    exact h.below i (hm hi)
  · intro i hi j hj hij
    rw [ho]
    exact h.ordered i (hm hi) j (hm hj) hij
  · rw [he, total_succ_of_not ha]
    have := h.packed
    omega

theorem Wrapped.skip (h : Wrapped image count layout) (ha : (image.sectionOf count).allocated = false)
    (hs : layout'.allocation_size = layout.allocation_size) : Wrapped image (count + 1) layout' := by
  constructor
  · exact le_of_le_of_eq h.extent (extent_succ_of_not ha).symm
  · have hp := h.packed
    have ht := total_succ_of_not ha
    grind

theorem Fitted.place (h : Fitted image count layout) {s : UInt64}
    (hal : (image.sectionOf count).allocated = true) (ha : Aligns (image.sectionOf count).alignmentOf)
    (hs : s.toNat = roundUp layout.allocation_size.toNat (image.sectionOf count).alignmentOf.toNat)
    (hlt : s.toNat + (image.sectionOf count).size.toNat < 2 ^ 64)
    (hsz : layout'.allocation_size = s + (image.sectionOf count).size)
    (ho : layout'.offsets = Function.update layout.offsets count s) :
    Fitted image (count + 1) layout' := by
  have he : extent image (count + 1) = s.toNat + (image.sectionOf count).size.toNat := by
    rw [extent_succ_of_allocated hal, hs, h.size]
  have hen : layout'.allocation_size.toNat = s.toNat + (image.sectionOf count).size.toNat := by
    grind
  have hle : layout.allocation_size.toNat ≤ s.toNat := by
    rw [hs]
    exact le_roundUp ha.pos
  -- A loaded section is an earlier one or the new one.
  have hc {i : Nat} (hi : i ∈ loaded image (count + 1)) :
      (i ∈ loaded image count ∧ layout'.offsets i = layout.offsets i) ∨
        (i = count ∧ layout'.offsets i = s) := by
    by_cases heq : i = count
    · subst heq
      simp [ho, Function.update_self]
    · refine Or.inl ⟨(mem_loaded_succ (Or.inl heq)).mp hi, ?_⟩
      rw [ho, Function.update_of_ne heq]
  constructor
  · rw [hen, he]
  · intro i hi
    rcases hc hi with ⟨hi, heq⟩ | ⟨rfl, heq⟩
    · have := h.below i hi
      rw [heq, hen]
      omega
    · rw [heq, hen]
  · intro i hi j hj hij
    rcases hc hi with ⟨hi, hei⟩ | ⟨rfl, hei⟩
    · rw [hei]
      rcases hc hj with ⟨hj, hej⟩ | ⟨rfl, hej⟩
      · rw [hej]
        exact h.ordered i hi j hj hij
      · have := h.below i hi
        rw [hej]
        omega
    · have := (mem_loaded.mp hj).1
      omega
  · have hr := roundUp_le layout.allocation_size.toNat (image.sectionOf count).alignmentOf.toNat
    have hp := h.packed
    have hb := ha.le
    rw [h.size] at hr
    rw [he, total_succ_of_allocated hal, hs, h.size]
    omega

theorem Fitted.wrap (h : Fitted image count layout)
    (hal : (image.sectionOf count).allocated = true) (ha : Aligns (image.sectionOf count).alignmentOf)
    (ho : 2 ^ 64 ≤ layout.allocation_size.toNat + ((image.sectionOf count).alignmentOf.toNat - 1))
    (hs : layout'.allocation_size = (image.sectionOf count).size) : Wrapped image (count + 1) layout' := by
  have hd : (image.sectionOf count).alignmentOf.toNat ∣ 2 ^ 64 := by
    obtain ⟨k, hk, heq⟩ := ha
    rw [heq]
    exact Nat.pow_dvd_pow 2 (by omega)
  constructor
  · rw [extent_succ_of_allocated hal, ← h.size]
    exact Nat.le_add_right_of_le (le_roundUp_of_dvd ha.pos hd ho)
  · have hp := h.packed
    have hb := ha.le
    rw [hs, total_succ_of_allocated hal]
    rw [← h.size] at hp
    omega

theorem Wrapped.place (h : Wrapped image count layout) {s : UInt64}
    (hal : (image.sectionOf count).allocated = true) (ha : Aligns (image.sectionOf count).alignmentOf)
    (hst : s.toNat ≤ layout.allocation_size.toNat + ((image.sectionOf count).alignmentOf.toNat - 1))
    (hlt : s.toNat + (image.sectionOf count).size.toNat < 2 ^ 64)
    (hs : layout'.allocation_size = s + (image.sectionOf count).size) :
    Wrapped image (count + 1) layout' := by
  constructor
  · rw [extent_succ_of_allocated hal]
    exact Nat.le_add_right_of_le (Nat.le_trans h.extent (le_roundUp ha.pos))
  · have he : layout'.allocation_size.toNat = s.toNat + (image.sectionOf count).size.toNat := by
      grind
    have hp := h.packed
    have hb := ha.le
    rw [he, total_succ_of_allocated hal]
    omega

end

theorem layout_loop_fitted_or_wrapped {image : Image} {count : Nat} {layout : Layout}
    (h : layout_loop image count = some layout) : Fitted image count layout ∨ Wrapped image count layout := by
  induction count generalizing layout with
  | zero =>
    obtain rfl := Option.some.inj h
    refine Or.inl ⟨rfl, ?_, ?_, Nat.zero_le _⟩
    · intro i hi
      exact absurd (mem_loaded.mp hi).1 (Nat.not_lt_zero i)
    · intro i hi
      exact absurd (mem_loaded.mp hi).1 (Nat.not_lt_zero i)
  | succ count ih =>
    unfold layout_loop at h
    split at h
    · cases h
    next b hb =>
    obtain ⟨hal, ⟨ha, s, hst, hlt, hs, ho⟩ | ⟨ha, hs, ho⟩⟩ :=
      layout_section_some h rfl
    · have hr := align_up_toNat hal b.allocation_size
      rw [← hst] at hr
      have hle := roundUp_le b.allocation_size.toNat (image.sectionOf count).alignmentOf.toNat
      rcases ih hb with hf | hw
      · split at hr
        next hft => exact Or.inl (hf.place ha hal hr hlt hs ho)
        next hov =>
          obtain rfl : s = 0 := UInt64.toNat_inj.mp hr
          refine Or.inr (hf.wrap ha hal (Nat.le_of_not_lt hov) ?_)
          rw [hs, UInt64.zero_add]
      · refine Or.inr (hw.place ha hal ?_ hlt hs)
        grind
    · rcases ih hb with hf | hw
      · exact Or.inl (hf.skip ha hs ho)
      · exact Or.inr (hw.skip ha hs)

/-! ## The places of the sections -/

def placeOf (image : Image) (layout : Layout) (allocation : UInt64) (index : Nat) : Range :=
  ⟨(allocation + layout.offsets index).toNat, (image.sectionOf index).size.toNat⟩

def Layout.whole (layout : Layout) (allocation : UInt64) : Range :=
  ⟨allocation.toNat, layout.allocation_size.toNat⟩

/-- The sections lie inside the allocation, and no two overlap. -/
structure Placed (image : Image) (layout : Layout) (allocation : UInt64) : Prop where
  inside : ∀ i ∈ loaded image image.section_count.toNat,
    (placeOf image layout allocation i).Inside (layout.whole allocation)
  apart : ∀ i ∈ loaded image image.section_count.toNat, ∀ j ∈ loaded image image.section_count.toNat, i ≠ j →
    (placeOf image layout allocation i).Apart (placeOf image layout allocation j)

section
variable {image : Image} {layout : Layout}

theorem Fitted.toNat_address {count i : Nat} (h : Fitted image count layout)
    (allocation : Allocation layout.allocation_size) (hi : i ∈ loaded image count)
    (hs : 0 < (image.sectionOf i).size.toNat) :
    (allocation.address + layout.offsets i).toNat = allocation.address.toNat + (layout.offsets i).toNat := by
  have hb := h.below i hi
  have hf := allocation.fits
  grind

theorem Fitted.placed (h : Fitted image image.section_count.toNat layout)
    (allocation : Allocation layout.allocation_size) : Placed image layout allocation.address := by
  constructor
  · intro i hi
    rcases Nat.eq_zero_or_pos (image.sectionOf i).size.toNat with hz | hpo
    · exact Range.inside_of_empty hz
    · have hsr := h.toNat_address allocation hi hpo
      have hb := h.below i hi
      grind [placeOf, Layout.whole, Range.inside_of_le]
  · intro i hi j hj hij
    rcases Nat.eq_zero_or_pos (image.sectionOf i).size.toNat with hz | hp
    · exact Range.apart_of_empty hz
    rcases Nat.eq_zero_or_pos (image.sectionOf j).size.toNat with hz | hps
    · exact (Range.apart_of_empty hz).symm
    have hs := h.toNat_address allocation hi hp
    have hst := h.toNat_address allocation hj hps
    rcases Nat.lt_or_gt_of_ne hij with hlt | hgt
    · have ho := h.ordered i hi j hj hlt
      grind [placeOf, Range.apart_of_le]
    · have ho := h.ordered j hj i hi hgt
      grind [placeOf, Range.Apart.symm, Range.apart_of_le]

theorem Wrapped.not_placed (h : Wrapped image image.section_count.toNat layout)
    (hc : image.section_count.toNat ≤ 128) (allocation : UInt64) : ¬ Placed image layout allocation := by
  intro hp
  have hle : total image image.section_count.toNat ≤ layout.allocation_size.toNat :=
    sum_length_le _ (placeOf image layout allocation) (layout.whole allocation) hp.inside hp.apart
  have hpc := h.packed
  omega

end

/-! ## The stores -/

/-- Every store so far lies inside the allocation, and the addresses of the
sections are those of the layout. -/
structure Within (image : Image) (layout : Layout) (allocation : UInt64) (count : Nat) (loader : Loader) : Prop where
  written : ∀ r ∈ loader.written, r.Inside (layout.whole allocation)
  addresses : ∀ i, loader.section_addresses i =
    if i ∈ loaded image count then allocation + layout.offsets i else 0

section
variable {image : Image} {layout : Layout} {allocation : UInt64} {count : Nat} {loader : Loader}

theorem Within.mem_copy (h : Within image layout allocation count loader) {d s sz : UInt64}
    (hi : (Range.mk d.toNat sz.toNat).Inside (layout.whole allocation)) :
    Within image layout allocation count (mvh_mem_copy loader d image s sz) := by
  unfold mvh_mem_copy
  split
  · exact h
  · refine ⟨?_, h.addresses⟩
    intro r hr
    rcases List.mem_cons.mp hr with rfl | hr
    · exact hi
    · exact h.written r hr

theorem Within.copy_section (h : Within image layout allocation count loader)
    (hp : (image.sectionOf count).allocated = true →
      (placeOf image layout allocation count).Inside (layout.whole allocation)) :
    Within image layout allocation (count + 1) (copy_section image layout allocation count loader) := by
  unfold module.copy_section
  dsimp only
  split
  next ha =>
    refine ⟨h.written, ?_⟩
    intro i
    rw [h.addresses i]
    simp only [mem_loaded_succ (Or.inr ha)]
  next ha =>
    have ha : (image.sectionOf count).allocated = true := by simpa using ha
    have hn : Within image layout allocation (count + 1)
        { loader with
          section_addresses :=
            Function.update loader.section_addresses count (allocation + layout.offsets count) } := by
      refine ⟨h.written, ?_⟩
      intro i
      dsimp only
      by_cases heq : i = count
      · subst heq
        rw [Function.update_self, if_pos (mem_loaded.mpr ⟨by omega, ha⟩)]
      · rw [Function.update_of_ne heq, h.addresses i]
        simp only [mem_loaded_succ (Or.inl heq)]
    split
    · exact hn.mem_copy (hp ha)
    · exact hn

theorem Within.copy_loop (h : Within image layout allocation 0 loader)
    (hp : ∀ i ∈ loaded image count, (placeOf image layout allocation i).Inside (layout.whole allocation)) :
    Within image layout allocation count (copy_loop image layout allocation count loader) := by
  induction count with
  | zero => exact h
  | succ count ih =>
    have hb := ih fun i hi => by
      obtain ⟨hlt, ha⟩ := mem_loaded.mp hi
      exact hp i (mem_loaded.mpr ⟨by omega, ha⟩)
    exact hb.copy_section fun ha => hp count (mem_loaded.mpr ⟨by omega, ha⟩)

theorem Within.store {loader' : Loader} {r : Range} (h : Within image layout allocation count loader)
    (hi : r.Inside (layout.whole allocation)) (hw : loader'.written = r :: loader.written)
    (ha : loader'.section_addresses = loader.section_addresses) :
    Within image layout allocation count loader' := by
  constructor
  · intro r' hr
    rw [hw] at hr
    rcases List.mem_cons.mp hr with rfl | hr
    · exact hi
    · exact h.written r' hr
  · rw [ha]
    exact h.addresses

theorem Within.apply_relocation (h : Within image layout allocation count loader) (type : UInt32)
    (place v : UInt64)
    (hi : (Range.mk place.toNat (relocation_width type).toNat).Inside (layout.whole allocation)) :
    Within image layout allocation count (apply_relocation loader type place v).1 := by
  unfold relocation_width at hi
  unfold module.apply_relocation
  split
  · exact h
  split
  next h64 =>
    rw [if_pos h64] at hi
    exact h.store hi rfl rfl
  next h64 =>
  rw [if_neg h64] at hi
  split
  · dsimp only
    split
    · exact h
    · exact h.store hi rfl rfl
  split
  · split
    · exact h
    · exact h.store hi rfl rfl
  split
  · split
    · exact h
    · exact h.store hi rfl rfl
  · exact h

end

section
variable {image : Image} {exports : List Export} {plan : Plan} {count : Nat} {loader : Loader}
  {allocation : Allocation plan.layout.allocation_size}

theorem Within.relocate_item (hf : Fitted image count plan.layout) {r : Section} (i : Nat)
    (hi : r.info.toNat ∈ loaded image count)
    (h : Within image plan.layout allocation.address count loader) :
    Within image plan.layout allocation.address count
      (relocate_item image exports plan r i loader).1 := by
  unfold module.relocate_item
  dsimp only
  generalize rela_at image.bytes (r.offset.toNat + 24 * i) = relocation
  split
  · exact h
  next hc =>
  split
  · exact h
  apply h.apply_relocation
  rw [not_or, not_or] at hc
  obtain ⟨_, ho, hw⟩ := hc
  rw [gt_iff_lt, UInt64.not_lt, UInt64.le_iff_toNat_le] at ho
  rw [UInt64.not_lt, UInt64.le_iff_toNat_le, UInt64.toNat_sub_of_le _ _ (UInt64.le_iff_toNat_le.mpr ho)] at hw
  have hps : 0 < (relocation_width relocation.info.toUInt32).toNat := by
    unfold relocation_width
    split <;> decide
  have hs := hf.toNat_address allocation hi (by omega)
  have hb := hf.below _ hi
  have hft := allocation.fits
  have hp : (loader.section_addresses r.info.toNat + relocation.offset).toNat =
      allocation.address.toNat + (plan.layout.offsets r.info.toNat).toNat + relocation.offset.toNat := by
    rw [h.addresses, if_pos hi, UInt64.toNat_add, hs, Nat.mod_eq_of_lt (by omega)]
  rw [hp]
  apply Range.inside_of_le
  · dsimp only [Layout.whole]
    omega
  · dsimp only [Layout.whole]
    omega

theorem Within.relocate_section (hf : Fitted image count plan.layout) (index : Nat)
    (h : Within image plan.layout allocation.address count loader) :
    Within image plan.layout allocation.address count (relocate_section image exports plan index loader).1 := by
  unfold module.relocate_section
  dsimp only
  split
  · exact h
  split
  · exact h
  next hc =>
  have hi : (image.sectionOf index).info.toNat ∈ loaded image count := by
    by_contra hn
    apply hc
    simp [h.addresses, hn]
  exact wrappingLoop_keeps (Within image plan.layout allocation.address count) h
    fun i _ loader h => h.relocate_item hf i hi

theorem Within.elf_fill (hf : Fitted image image.section_count.toNat plan.layout) (m : Mem) :
    Within image plan.layout allocation.address image.section_count.toNat
      (elf_fill image exports plan allocation.address m).1 := by
  unfold module.elf_fill
  refine loop_keeps (Within image plan.layout allocation.address image.section_count.toNat) ?_
    fun index _ loader h => h.relocate_section hf index
  apply Within.copy_loop
  · refine ⟨by simp, ?_⟩
    intro i
    rw [if_neg]
    intro hi
    exact Nat.not_lt_zero i (mem_loaded.mp hi).1
  · exact (hf.placed allocation).inside

end

/-! ## Containment -/

theorem elf_plan_some {image : Image} {plan : Plan} (h : elf_plan image = some plan) :
    image.section_count.toNat ≤ 128 ∧ layout_loop image image.section_count.toNat = some plan.layout := by
  unfold elf_plan at h
  split at h
  · cases h
  next hh =>
  have hc : image.section_count ≤ ELF_SECTION_LIMIT := by
    have hv : image.header_valid = true := by simpa using hh
    simp only [Image.header_valid, Bool.and_eq_true, decide_eq_true_eq] at hv
    exact hv.1.2
  refine ⟨UInt16.le_iff_toNat_le.mp hc, ?_⟩
  grind

/-- What the two loops write lies inside the allocation, and so do the sections, apart
from one another. -/
structure Contained (image : Image) (exports : List Export) (memory : Mem) (plan : Plan) (allocation : UInt64) :
    Prop where
  written : ∀ r ∈ (elf_fill image exports plan allocation memory).1.written, r.Inside (plan.layout.whole allocation)
  placed : Placed image plan.layout allocation

/-- An image that is not refused before the allocation is loaded inside of it, exactly
when its sections, one behind the other, end inside the address space. -/
theorem an_image_is_contained_iff (image : Image) (exports : List Export) (memory : Mem) (plan : Plan)
    (hplan : elf_plan image = some plan) (allocation : Allocation plan.layout.allocation_size) :
    Contained image exports memory plan allocation.address ↔ extent image image.section_count.toNat < 2 ^ 64 := by
  obtain ⟨hcount, hlayout⟩ := elf_plan_some hplan
  rcases layout_loop_fitted_or_wrapped hlayout with hfitted | hwrapped
  · constructor
    · intro _
      rw [← hfitted.size]
      exact plan.layout.allocation_size.toNat_lt
    · intro _
      exact ⟨(Within.elf_fill hfitted memory).written, hfitted.placed allocation⟩
  · constructor
    · intro hcontained
      exact absurd hcontained.placed (hwrapped.not_placed hcount _)
    · intro hlt
      exact absurd hwrapped.extent (Nat.not_le_of_lt hlt)

/-! ## Images -/

def number (n v : Nat) : List UInt8 := (List.range n).map fun i => UInt8.ofNat (v / 256 ^ i)

def headerBytes (section_count : Nat) : List UInt8 :=
  [0x7F, 0x45, 0x4C, 0x46, 2, 1, 1, 0] ++ number 8 0 ++ number 2 1 ++ number 2 62 ++ number 4 1 ++ number 8 0 ++
    number 8 0 ++ number 8 64 ++ number 4 0 ++ number 2 64 ++ number 2 0 ++ number 2 0 ++ number 2 64 ++
    number 2 section_count ++ number 2 0

def sectionBytes (type flags offset size link info alignment entry_size : Nat) : List UInt8 :=
  number 4 0 ++ number 4 type ++ number 8 flags ++ number 8 0 ++ number 8 offset ++ number 8 size ++
    number 4 link ++ number 4 info ++ number 8 alignment ++ number 8 entry_size

def imageOf (bytes : List UInt8) : Image := ⟨fun i => bytes.getD i 0, UInt64.ofNat bytes.length⟩

def smallImage : Image :=
  imageOf (headerBytes 2 ++ sectionBytes 1 2 0 16 0 0 16 0 ++ sectionBytes 2 0 192 24 1 0 8 24 ++ number 24 0)

theorem a_small_image_is_contained :
    ∃ plan, elf_plan smallImage = some plan ∧
      ∀ (exports : List Export) (memory : Mem) (allocation : Allocation plan.layout.allocation_size),
        Contained smallImage exports memory plan allocation.address := by
  have hsome : (elf_plan smallImage).isSome = true := by decide +kernel
  obtain ⟨plan, hplan⟩ := Option.isSome_iff_exists.mp hsome
  have hextent : extent smallImage smallImage.section_count.toNat < 2 ^ 64 := by decide +kernel
  exact ⟨plan, hplan, fun exports memory allocation =>
    (an_image_is_contained_iff smallImage exports memory plan hplan allocation).mpr hextent⟩

/-- A section without contents that ends 8 bytes below the end of the address space, one of
16 bytes with alignment 16, and a relocation a million bytes into the first. -/
def wrappingImage : Image :=
  imageOf (headerBytes 4 ++ sectionBytes 8 2 0 (2 ^ 64 - 8) 0 0 1 0 ++ sectionBytes 8 2 0 16 0 0 16 0 ++
    sectionBytes 2 0 320 24 2 0 8 24 ++ sectionBytes 4 0 344 24 2 0 8 24 ++
    (number 6 0 ++ number 2 0xFFF1 ++ number 16 0) ++ (number 8 1000000 ++ number 8 1 ++ number 8 0x41414141))

/-- Only 16 bytes are allocated, and the relocation is stored far behind them. -/
theorem a_relocation_lands_behind_the_allocation :
    ∃ plan, elf_plan wrappingImage = some plan ∧ plan.layout.allocation_size = 16 ∧
      (elf_fill wrappingImage [] plan 0x100000 fun _ => 0).1.written = [⟨0x100000 + 1000000, 8⟩] ∧
      ¬ Contained wrappingImage [] (fun _ => 0) plan 0x100000 := by
  have hrun : (elf_plan wrappingImage).map (fun plan =>
      (plan.layout.allocation_size, (elf_fill wrappingImage [] plan 0x100000 fun _ => 0).1.written)) =
        some (16, [⟨0x100000 + 1000000, 8⟩]) := by
    decide +kernel
  obtain ⟨plan, hplan, hpair⟩ := Option.map_eq_some_iff.mp hrun
  obtain ⟨hsize, hwritten⟩ := Prod.mk.inj hpair
  refine ⟨plan, hplan, hsize, hwritten, fun hcontained => ?_⟩
  have hinside := hcontained.written ⟨0x100000 + 1000000, 8⟩ (by rw [hwritten]; exact List.mem_singleton_self _)
  have hends := (Range.inside_iff (by decide)).mp hinside
  dsimp only [Layout.whole] at hends
  rw [hsize] at hends
  exact absurd hends.2 (by decide)

end mvh.module
