-- Ranges of addresses: what lies in one, when two are apart, and how much fits into one
-- when its parts are apart.
import MvhKernel.Words
import Mathlib

namespace ranges

/-- The `length` addresses from `start` on. -/
structure Range where
  start : Nat
  length : Nat
  deriving DecidableEq

def Range.Has (r : Range) (x : Nat) : Prop := r.start ≤ x ∧ x < r.start + r.length

def Range.Inside (r s : Range) : Prop := ∀ x, r.Has x → s.Has x

def Range.Apart (r s : Range) : Prop := ∀ x, r.Has x → ¬ s.Has x

section
variable {r s : Range}

theorem Range.inside_of_le (h1 : s.start ≤ r.start) (h2 : r.start + r.length ≤ s.start + s.length) :
    r.Inside s := by
  intro x hx
  unfold Has at hx ⊢
  omega

theorem Range.inside_of_empty (h : r.length = 0) : r.Inside s := by
  intro x hx
  unfold Has at hx
  omega

theorem Range.apart_of_empty (h : r.length = 0) : r.Apart s := by
  intro x hx
  unfold Has at hx
  omega

theorem Range.apart_of_le (h : r.start + r.length ≤ s.start) : r.Apart s := by
  intro x hr hs
  unfold Has at hr hs
  omega

theorem Range.Apart.symm (h : r.Apart s) : s.Apart r := fun x hs hr => h x hr hs

theorem Range.inside_iff (h : 0 < r.length) :
    r.Inside s ↔ s.start ≤ r.start ∧ r.start + r.length ≤ s.start + s.length := by
  constructor
  · intro hi
    have hf := hi r.start ⟨le_refl _, by omega⟩
    have hl := hi (r.start + r.length - 1) ⟨by omega, by omega⟩
    unfold Has at hf hl
    omega
  grind [inside_of_le]

end

theorem sum_length_le {ι : Type} (S : Finset ι) (part : ι → Range) (whole : Range)
    (hin : ∀ i ∈ S, (part i).Inside whole)
    (ha : ∀ i ∈ S, ∀ j ∈ S, i ≠ j → (part i).Apart (part j)) :
    ∑ i ∈ S, (part i).length ≤ whole.length := by
  let interval (r : Range) : Finset Nat := Finset.Ico r.start (r.start + r.length)
  have hm (r : Range) (x : Nat) : x ∈ interval r ↔ r.Has x := Finset.mem_Ico
  have hc (r : Range) : (interval r).card = r.length := by simp [interval]
  have hs : S.biUnion (fun i => interval (part i)) ⊆ interval whole := by
    intro x hx
    obtain ⟨i, hi, hx⟩ := Finset.mem_biUnion.mp hx
    exact (hm _ _).mpr (hin i hi x ((hm _ _).mp hx))
  have hd : (S : Set ι).PairwiseDisjoint fun i => interval (part i) := by
    intro i hi j hj hij
    refine Finset.disjoint_left.mpr fun x h1 h2 => ?_
    exact ha i hi j hj hij x ((hm _ _).mp h1) ((hm _ _).mp h2)
  calc ∑ i ∈ S, (part i).length = ∑ i ∈ S, (interval (part i)).card := by simp only [hc]
    _ = (S.biUnion fun i => interval (part i)).card := (Finset.card_biUnion hd).symm
    _ ≤ (interval whole).card := Finset.card_le_card hs
    _ = whole.length := hc whole

/-! ## Alignment -/

def roundUp (n a : Nat) : Nat := (n + (a - 1)) / a * a

section
variable {n a : Nat}

theorem le_roundUp (h : 0 < a) : n ≤ roundUp n a := by
  have hd := Nat.div_add_mod (n + (a - 1)) a
  have hm := Nat.mod_lt (n + (a - 1)) h
  grind [Nat.mul_comm, roundUp]

theorem le_roundUp_of_dvd {m : Nat} (h : 0 < a) (hd : a ∣ m) (hle : m ≤ n + (a - 1)) : m ≤ roundUp n a := by
  obtain ⟨q, rfl⟩ := hd
  have hq : q ≤ (n + (a - 1)) / a := (Nat.le_div_iff_mul_le h).mpr (by rwa [Nat.mul_comm])
  rw [Nat.mul_comm a q]
  exact Nat.mul_le_mul_right a hq

theorem roundUp_le (n a : Nat) : roundUp n a ≤ n + (a - 1) := Nat.div_mul_le_self _ _

end

theorem toNat_and_not (v : UInt64) {mask : UInt64} {k : Nat} (h : mask.toNat = 2 ^ k - 1) :
    (v &&& ~~~mask).toNat = v.toNat / 2 ^ k * 2 ^ k := by
  rw [← Nat.shiftRight_eq_div_pow, ← Nat.shiftLeft_eq]
  apply Nat.eq_of_testBit_eq
  intro i
  have hm : mask.toBitVec.getLsbD i = decide (i < k) := by
    rw [← BitVec.testBit_toNat, UInt64.toNat_toBitVec, h, Nat.testBit_two_pow_sub_one]
  have hv : i < 64 ∨ v.toNat.testBit i = false := by
    by_cases hi : i < 64
    · exact Or.inl hi
    · have hp : 2 ^ 64 ≤ 2 ^ i := Nat.pow_le_pow_right (by omega) (by omega)
      exact Or.inr (Nat.testBit_lt_two_pow (Nat.lt_of_lt_of_le v.toNat_lt hp))
  rw [UInt64.toNat_and, Nat.testBit_and, Nat.testBit_shiftLeft, Nat.testBit_shiftRight]
  grind [UInt64.toNat_toBitVec, BitVec.testBit_toNat, UInt64.toBitVec_not, BitVec.getLsbD_not]

end ranges
