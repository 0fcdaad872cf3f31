-- Bitmaps: bits in bytes, eight in a byte, the lowest one first.
import Mathlib.Data.Finset.Card
import Mathlib.Order.Interval.Finset.Nat
import Mathlib.Data.Nat.Bitwise

namespace bitmap

def mask (i : Nat) : UInt8 := 1 <<< UInt8.ofNat (i % 8)

def test (b : Nat → UInt8) (i : Nat) : Bool := (b (i / 8)).toBitVec.getLsbD (i % 8)

def set (b : Nat → UInt8) (i : Nat) : Nat → UInt8 := Function.update b (i / 8) (b (i / 8) ||| mask i)

def clear (b : Nat → UInt8) (i : Nat) : Nat → UInt8 :=
  Function.update b (i / 8) (b (i / 8) &&& ~~~ mask i)

/-! ## One bit -/

theorem getLsbD_mask (i : Nat) {j : Nat} (hj : j < 8) :
    (mask i).toBitVec.getLsbD j = decide (j = i % 8) := by
  have hi : i % 8 < 8 := Nat.mod_lt _ (by decide)
  unfold mask
  generalize i % 8 = r at hi
  revert r j
  decide

theorem and_mask_ne_zero (b : Nat → UInt8) (i : Nat) : b (i / 8) &&& mask i ≠ 0 ↔ test b i = true := by
  have hi : i % 8 < 8 := Nat.mod_lt _ (by decide)
  constructor
  · intro hne
    by_contra ht
    refine hne ?_
    apply UInt8.toBitVec_inj.mp
    apply BitVec.eq_of_getLsbD_eq
    intro j hj
    rw [UInt8.toBitVec_and, BitVec.getLsbD_and, getLsbD_mask i hj]
    by_cases hij : j = i % 8
    · subst hij
      simp only [test, Bool.not_eq_true] at ht
      simp [ht]
    · simp [hij]
  · intro ht hz
    have hb := congrArg (fun x => (UInt8.toBitVec x).getLsbD (i % 8)) hz
    simp only [UInt8.toBitVec_and, BitVec.getLsbD_and, getLsbD_mask i hi] at hb
    simp only [test] at ht
    simp [ht] at hb

theorem test_set (b : Nat → UInt8) (i j : Nat) : test (set b i) j = (decide (j = i) || test b j) := by
  have hj : j % 8 < 8 := Nat.mod_lt _ (by decide)
  unfold test set
  by_cases hb : j / 8 = i / 8
  · have hp : j % 8 = i % 8 ↔ j = i := by omega
    grind [Function.update_self, UInt8.toBitVec_or, BitVec.getLsbD_or, getLsbD_mask, Bool.or_comm]
  · grind

theorem test_clear (b : Nat → UInt8) (i j : Nat) :
    test (clear b i) j = (!decide (j = i) && test b j) := by
  have hj : j % 8 < 8 := Nat.mod_lt _ (by decide)
  unfold test clear
  by_cases hb : j / 8 = i / 8
  · have hp : j % 8 = i % 8 ↔ j = i := by omega
    rw [hb, Function.update_self, UInt8.toBitVec_and, BitVec.getLsbD_and, UInt8.toBitVec_not,
      BitVec.getLsbD_not, getLsbD_mask i hj, Bool.and_comm]
    grind
  · grind

/-! ## Counting -/

def marked (b : Nat → UInt8) (n : Nat) : Finset Nat := {i ∈ Finset.range n | test b i = true}

theorem mem_marked {b : Nat → UInt8} {n i : Nat} : i ∈ marked b n ↔ i < n ∧ test b i = true := by
  rw [marked, Finset.mem_filter, Finset.mem_range]

theorem card_marked_le (b : Nat → UInt8) (n : Nat) : (marked b n).card ≤ n := by
  have h := Finset.card_filter_le (Finset.range n) (fun i => test b i = true)
  rwa [Finset.card_range] at h

theorem card_marked_clear {b : Nat → UInt8} {n i : Nat} (hi : i < n) (h : test b i = true) :
    (marked (clear b i) n).card + 1 = (marked b n).card := by
  have he : marked (clear b i) n = (marked b n).erase i := by
    ext j
    simp only [mem_marked, Finset.mem_erase, test_clear, Bool.and_eq_true, Bool.not_eq_true',
      decide_eq_false_iff_not]
    tauto
  rw [he, Finset.card_erase_add_one (mem_marked.mpr ⟨hi, h⟩)]

theorem card_marked_run {b b' : Nat → UInt8} {n s count : Nat} (hn : s + count ≤ n)
    (hc : ∀ i, s ≤ i → i < s + count → test b i = false)
    (hs : ∀ i, test b' i = (decide (s ≤ i ∧ i < s + count) || test b i)) :
    (marked b' n).card = (marked b n).card + count := by
  have hu : marked b' n = marked b n ∪ Finset.Ico s (s + count) := by
    ext i
    simp only [mem_marked, hs, Finset.mem_union, Finset.mem_Ico, Bool.or_eq_true,
      decide_eq_true_eq]
    grind
  have hd : Disjoint (marked b n) (Finset.Ico s (s + count)) := by
    rw [Finset.disjoint_left]
    intro i hi hr
    rw [Finset.mem_Ico] at hr
    have := hc i hr.1 hr.2
    rw [(mem_marked.mp hi).2] at this
    cases this
  grind [Finset.card_union_of_disjoint, Nat.card_Ico]

theorem card_marked_of_lt {b : Nat → UInt8} {n k : Nat} (hk : k ≤ n)
    (h : ∀ i < n, test b i = true ↔ i < k) : (marked b n).card = k := by
  have hr : marked b n = Finset.range k := by grind [mem_marked, Finset.mem_range]
  rw [hr, Finset.card_range]

end bitmap
