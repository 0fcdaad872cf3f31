-- The checked arithmetic of the utilities (`util.c`): Fibonacci numbers, powers, square
-- roots and the signed product.
import Mathlib.Data.Nat.Fib.Basic
import Mathlib.Tactic.NormNum.NatFib
import MvhKernel.Elf
import MvhKernel.Parsers

open exact_words
open mvh.module (mvh_checked_add_u64)

namespace mvh.util

/-! ## The functions -/

def mvh_checked_mul_u64 (left right : UInt64) : Option UInt64 :=
  if left ≠ 0 ∧ right > MVH_U64_MAX / left then none else some (left * right)

/-- `steps` turns of the loop. -/
def fibonacciLoop : Nat → UInt64 → UInt64 → Option UInt64
  | 0, previous, _ => some previous
  | steps + 1, previous, current => do
    let next ← mvh_checked_add_u64 previous current
    fibonacciLoop steps current next

def mvh_fibonacci_u64 (index : UInt32) (result : Option UInt64) : Int × Option UInt64 :=
  match result with
  | none => (-1, none)
  | some _ => store result (fibonacciLoop index.toNat 0 1)

theorem shiftRight_one_lt {exponent : UInt32} (h : exponent ≠ 0) :
    (exponent >>> 1).toNat < exponent.toNat := by
  have hpos : exponent.toNat ≠ 0 := fun h0 => h (UInt32.toNat_inj.mp h0)
  rw [UInt32.toNat_shiftRight, Nat.shiftRight_eq_div_pow]
  exact Nat.div_lt_self (Nat.pos_of_ne_zero hpos) (by decide)

def powLoop (base : UInt64) (exponent : UInt32) (product : UInt64) : Option UInt64 :=
  if h : exponent = 0 then some product
  else do
    let product ← (if exponent &&& 1 ≠ 0 then mvh_checked_mul_u64 product base else some product)
    let base ← (if exponent >>> 1 ≠ 0 then mvh_checked_mul_u64 base base else some base)
    powLoop base (exponent >>> 1) product
termination_by exponent.toNat
decreasing_by exact shiftRight_one_lt h

def mvh_pow_u64 (base : UInt64) (exponent : UInt32) (result : Option UInt64) : Int × Option UInt64 :=
  match result with
  | none => (-1, none)
  | some _ => store result (powLoop base exponent 1)

theorem shiftRight_two_lt {bit : UInt64} (h : 0 < bit.toNat) : (bit >>> 2).toNat < bit.toNat := by
  rw [UInt64.toNat_shiftRight, Nat.shiftRight_eq_div_pow]
  exact Nat.div_lt_self h (by decide)

def firstBit (value bit : UInt64) : UInt64 :=
  if h : bit > value then firstBit value (bit >>> 2) else bit
termination_by bit.toNat
decreasing_by exact shiftRight_two_lt (Nat.zero_lt_of_lt (UInt64.lt_iff_toNat_lt.mp h))

def sqrtLoop (value result bit : UInt64) : Noted UInt64 :=
  if h : bit = 0 then pure result
  else do
    let sum ← add result bit
    if value ≥ sum then do
      let value ← sub value sum
      let result ← add (result >>> 1) bit
      sqrtLoop value result (bit >>> 2)
    else sqrtLoop value (result >>> 1) (bit >>> 2)
termination_by bit.toNat
decreasing_by
  all_goals
    refine shiftRight_two_lt (Nat.pos_of_ne_zero fun h0 => h ?_)
    exact UInt64.toNat_inj.mp h0

def mvh_integer_sqrt_u64 (value : UInt64) : Noted UInt64 :=
  sqrtLoop value 0 (firstBit value ((1 : UInt64) <<< 62))

def mvh_abs_i64 (value : Int64) : Noted UInt64 :=
  if value < 0 then do
    let value ← add value 1
    let value ← neg value
    let value ← note value.toUInt64 value.toInt
    add value 1
  else note value.toUInt64 value.toInt

def mvh_checked_mul_i64 (left right : Int64) (result : Option Int64) : Noted (Int × Option Int64) :=
  match result with
  | none => pure (-1, none)
  | some _ => do
    let a ← mvh_abs_i64 left
    let b ← mvh_abs_i64 right
    let negative : Bool := decide (left < 0) != decide (right < 0)
    let limit := if negative then (1 : UInt64) <<< 63 else INT64_MAX.toUInt64
    if b ≠ 0 ∧ a > limit / b then pure (store result none)
    else do
      let product ← mul a b
      let value ← signed negative product
      pure (store result (some value))

/-! ## Sums and products that fit -/

def fit (n : Nat) : Option UInt64 := if n < 2 ^ 64 then some (UInt64.ofNat n) else none

theorem fit_of_lt {n : Nat} (h : n < 2 ^ 64) : fit n = some (UInt64.ofNat n) := if_pos h

theorem fit_of_le {n : Nat} (h : 2 ^ 64 ≤ n) : fit n = none := if_neg (Nat.not_lt.mpr h)

theorem fit_toNat (w : UInt64) : fit w.toNat = some w := by
  rw [fit_of_lt w.toNat_lt, UInt64.ofNat_toNat]

theorem checked_add_eq (left right : UInt64) :
    mvh_checked_add_u64 left right = fit (left.toNat + right.toNat) := by
  have hroom : (MVH_U64_MAX - right).toNat = 2 ^ 64 - 1 - right.toNat :=
    UInt64.toNat_sub_of_le _ _ (UInt64.le_iff_toNat_le.mpr (Nat.le_pred_of_lt right.toNat_lt))
  have htest : left > MVH_U64_MAX - right ↔ ¬ left.toNat + right.toNat < 2 ^ 64 := by
    have hright := right.toNat_lt
    rw [gt_iff_lt, UInt64.lt_iff_toNat_lt, hroom]
    omega
  unfold mvh_checked_add_u64
  by_cases hfits : left.toNat + right.toNat < 2 ^ 64
  · rw [if_neg fun h => htest.mp h hfits, fit_of_lt hfits, UInt64.ofNat_add, UInt64.ofNat_toNat,
      UInt64.ofNat_toNat]
  · rw [if_pos (htest.mpr hfits), fit_of_le (Nat.not_lt.mp hfits)]

theorem checked_mul_eq (left right : UInt64) :
    mvh_checked_mul_u64 left right = fit (left.toNat * right.toNat) := by
  have htest : (left ≠ 0 ∧ right > MVH_U64_MAX / left) ↔ ¬ left.toNat * right.toNat < 2 ^ 64 := by
    by_cases hleft : left = 0
    · rw [hleft]
      simp
    · have hpos : 0 < left.toNat := Nat.pos_of_ne_zero fun h0 => hleft (UInt64.toNat_inj.mp h0)
      rw [gt_iff_lt, UInt64.lt_iff_toNat_lt, UInt64.toNat_div, Nat.div_lt_iff_lt_mul hpos, Nat.mul_comm]
      exact ⟨fun h => Nat.not_lt.mpr h.2, fun h => ⟨hleft, Nat.not_lt.mp h⟩⟩
  unfold mvh_checked_mul_u64
  by_cases hfits : left.toNat * right.toNat < 2 ^ 64
  · rw [if_neg fun h => htest.mp h hfits, fit_of_lt hfits, UInt64.ofNat_mul, UInt64.ofNat_toNat,
      UInt64.ofNat_toNat]
  · rw [if_pos (htest.mpr hfits), fit_of_le (Nat.not_lt.mp hfits)]

/-! ## Fibonacci numbers -/

theorem fibonacciLoop_eq (steps k : Nat) (h : Nat.fib (k + 1) < 2 ^ 64) :
    fibonacciLoop steps (UInt64.ofNat (Nat.fib k)) (UInt64.ofNat (Nat.fib (k + 1))) =
      if Nat.fib (k + steps + 1) < 2 ^ 64 then some (UInt64.ofNat (Nat.fib (k + steps))) else none := by
  induction steps generalizing k with
  | zero => rw [Nat.add_zero, if_pos h]; rfl
  | succ steps ih =>
    have hprevious : Nat.fib k < 2 ^ 64 := Nat.lt_of_le_of_lt Nat.fib_le_fib_succ h
    have hplace : k + (steps + 1) = k + 1 + steps := by omega
    rw [fibonacciLoop, checked_add_eq, UInt64.toNat_ofNat_of_lt' hprevious,
      UInt64.toNat_ofNat_of_lt' h, ← Nat.fib_add_two, hplace]
    by_cases hnext : Nat.fib (k + 2) < 2 ^ 64
    · grind [fit_of_lt]
    · have hlast : Nat.fib (k + 2) ≤ Nat.fib (k + 1 + steps + 1) := Nat.fib_mono (by omega)
      grind [fit_of_le]

theorem fib_lt_iff (n : Nat) : Nat.fib n < 2 ^ 64 ↔ n ≤ 93 := by
  have hfits : Nat.fib 93 < 2 ^ 64 := by norm_num
  have hpasses : 2 ^ 64 ≤ Nat.fib 94 := by norm_num
  constructor
  · intro h
    by_contra hn
    exact absurd (Nat.fib_mono (show 94 ≤ n by omega)) (by omega)
  · intro h
    exact Nat.lt_of_le_of_lt (Nat.fib_mono h) hfits

theorem mvh_fibonacci_u64_eq (index : UInt32) (old : UInt64) :
    mvh_fibonacci_u64 index (some old) =
      if index.toNat ≤ 92 then (0, some (UInt64.ofNat (Nat.fib index.toNat))) else (-1, some old) := by
  have hloop := fibonacciLoop_eq index.toNat 0 (by decide)
  have hlast : Nat.fib (0 + index.toNat + 1) < 2 ^ 64 ↔ index.toNat ≤ 92 := by
    rw [fib_lt_iff]
    omega
  unfold mvh_fibonacci_u64
  show store (some old) (fibonacciLoop index.toNat (UInt64.ofNat (Nat.fib 0)) (UInt64.ofNat (Nat.fib 1))) = _
  rw [hloop]
  by_cases h : index.toNat ≤ 92
  · rw [if_pos (hlast.mpr h), if_pos h, Nat.zero_add]
    rfl
  · rw [if_neg fun hlt => h (hlast.mp hlt), if_neg h]
    rfl

/-- The function is exact up to the word limit, but for the last number that a word can hold. -/
theorem fibonacci_is_exact_iff (index : UInt32) :
    (∀ old, (Nat.fib index.toNat < 2 ^ 64 →
          mvh_fibonacci_u64 index (some old) = (0, some (UInt64.ofNat (Nat.fib index.toNat)))) ∧
        (¬ Nat.fib index.toNat < 2 ^ 64 → mvh_fibonacci_u64 index (some old) = (-1, some old))) ↔
      index ≠ 93 := by
  constructor
  · rintro h rfl
    have hfound := (h 0).1 ((fib_lt_iff _).mpr (by decide))
    rw [mvh_fibonacci_u64_eq, if_neg (by decide)] at hfound
    cases hfound
  · intro hindex old
    have hne : index.toNat ≠ 93 := fun h => hindex (UInt32.toNat_inj.mp h)
    rw [fib_lt_iff, mvh_fibonacci_u64_eq]
    exact ⟨fun h => if_pos (by omega), fun h => if_neg (by omega)⟩

/-- The 93rd number fits and is refused, since the 94th does not fit. -/
theorem the_last_number_is_refused :
    Nat.fib 93 = 12200160415121876738 ∧ mvh_fibonacci_u64 93 (some 7) = (-1, some 7) := by
  refine ⟨by norm_num, ?_⟩
  rw [mvh_fibonacci_u64_eq, if_neg (by decide)]

/-! ## Powers -/

theorem toNat_half (exponent : UInt32) : (exponent >>> 1).toNat = exponent.toNat / 2 := by
  rw [UInt32.toNat_shiftRight, Nat.shiftRight_eq_div_pow]
  rfl

theorem odd_iff (exponent : UInt32) : exponent &&& 1 ≠ 0 ↔ exponent.toNat % 2 = 1 := by
  rw [Ne, ← UInt32.toNat_inj, UInt32.toNat_and]
  simp

theorem pow_turn (base exponent product : Nat) :
    product * base ^ exponent =
      (if exponent % 2 = 1 then product * base else product) * (base * base) ^ (exponent / 2) := by
  have hsplit : base ^ exponent = base ^ (exponent % 2) * (base * base) ^ (exponent / 2) := by
    rw [← Nat.pow_two, ← Nat.pow_mul, ← Nat.pow_add, Nat.mod_add_div]
  rw [hsplit, ← Nat.mul_assoc]
  rcases Nat.mod_two_eq_zero_or_one exponent with h | h
  · rw [h, Nat.pow_zero, Nat.mul_one]
    rfl
  · rw [h, Nat.pow_one, if_pos rfl]

theorem powLoop_eq (base : UInt64) (exponent : UInt32) (product : UInt64)
    (h : product.toNat = 0 → base.toNat = 0) :
    powLoop base exponent product = fit (product.toNat * base.toNat ^ exponent.toNat) := by
  rw [powLoop]
  by_cases hzero : exponent = 0
  · rw [dif_pos hzero, hzero]
    show _ = fit (product.toNat * base.toNat ^ 0)
    rw [Nat.pow_zero, Nat.mul_one, fit_toNat]
  · rw [dif_neg hzero, pow_turn]
    have hproduct : (if exponent &&& 1 ≠ 0 then mvh_checked_mul_u64 product base else some product) =
        fit (if exponent.toNat % 2 = 1 then product.toNat * base.toNat else product.toNat) := by
      by_cases hodd : exponent.toNat % 2 = 1
      · rw [if_pos ((odd_iff _).mpr hodd), if_pos hodd, checked_mul_eq]
      · rw [if_neg fun ht => hodd ((odd_iff _).mp ht), if_neg hodd, fit_toNat]
    rw [hproduct]
    generalize hp : (if exponent.toNat % 2 = 1 then product.toNat * base.toNat else product.toNat) = p
    have hpbase : p = 0 → base.toNat = 0 := by
      intro hp0
      rw [hp0] at hp
      split at hp
      · exact (Nat.mul_eq_zero.mp hp).elim h id
      · exact h hp
    by_cases hfits : p < 2 ^ 64
    · rw [fit_of_lt hfits, Option.bind_eq_bind, Option.bind_some, ← toNat_half]
      have hP : (UInt64.ofNat p).toNat = p := by grind
      have hPbase : (UInt64.ofNat p).toNat = 0 → base.toNat = 0 := by rwa [hP]
      by_cases hlast : exponent >>> 1 = 0
      · rw [if_neg (not_not.mpr hlast), Option.bind_some,
          powLoop_eq base _ _ hPbase, hP, hlast]
        rfl
      · rw [if_pos hlast, checked_mul_eq]
        by_cases hsquare : base.toNat * base.toNat < 2 ^ 64
        · rw [fit_of_lt hsquare, Option.bind_some]
          have hB : (UInt64.ofNat (base.toNat * base.toNat)).toNat = base.toNat * base.toNat := by grind
          rw [powLoop_eq _ _ _ (by rw [hB]; intro h0; rw [hPbase h0]), hB, hP]
        · rw [fit_of_le (Nat.not_lt.mp hsquare)]
          refine (fit_of_le ?_).symm
          have hbase : base.toNat ≠ 0 := by grind
          calc 2 ^ 64 ≤ base.toNat * base.toNat := Nat.not_lt.mp hsquare
            _ ≤ (base.toNat * base.toNat) ^ (exponent >>> 1).toNat :=
              Nat.le_self_pow (fun h0 => hlast (UInt32.toNat_inj.mp h0)) _
            _ ≤ p * (base.toNat * base.toNat) ^ (exponent >>> 1).toNat :=
              Nat.le_mul_of_pos_left _ (Nat.pos_of_ne_zero fun h0 => hbase (hpbase h0))
    · have hbase : base.toNat ≠ 0 := by
        intro h0
        rw [h0, Nat.mul_zero] at hp
        have := product.toNat_lt
        split at hp <;> omega
      rw [fit_of_le (Nat.not_lt.mp hfits)]
      refine (fit_of_le ((Nat.not_lt.mp hfits).trans (Nat.le_mul_of_pos_right p ?_))).symm
      exact Nat.pow_pos (Nat.mul_pos (Nat.pos_of_ne_zero hbase) (Nat.pos_of_ne_zero hbase))
termination_by exponent.toNat
decreasing_by all_goals exact shiftRight_one_lt hzero

/-- The power is stored exactly when a word can hold it. -/
theorem the_power_is_exact (base : UInt64) (exponent : UInt32) (old : UInt64) :
    mvh_pow_u64 base exponent (some old) =
      if base.toNat ^ exponent.toNat < 2 ^ 64 then (0, some (UInt64.ofNat (base.toNat ^ exponent.toNat)))
      else (-1, some old) := by
  show store (some old) (powLoop base exponent 1) = _
  rw [powLoop_eq base exponent 1 nofun]
  show store (some old) (fit (1 * base.toNat ^ exponent.toNat)) = _
  rw [Nat.one_mul]
  by_cases h : base.toNat ^ exponent.toNat < 2 ^ 64
  · rw [fit_of_lt h, if_pos h]
    rfl
  · rw [fit_of_le (Nat.not_lt.mp h), if_neg h]
    rfl

/-! ## Square roots -/

theorem toNat_quarter (bit : UInt64) : (bit >>> 2).toNat = bit.toNat / 4 := by
  rw [UInt64.toNat_shiftRight, Nat.shiftRight_eq_div_pow]
  rfl

theorem quarter_of_pow {bit : UInt64} {k : Nat} (h : bit.toNat = 4 ^ (k + 1)) : (bit >>> 2).toNat = 4 ^ k := by
  rw [toNat_quarter, h, Nat.pow_succ, Nat.mul_div_cancel _ (by decide)]

theorem firstBit_spec (value : UInt64) (k : Nat) {bit : UInt64} (hbit : bit.toNat = 4 ^ k)
    (h : value.toNat < 4 ^ (k + 1)) :
    (∃ j ≤ k, (firstBit value bit).toNat = 4 ^ j ∧ value.toNat < 4 ^ (j + 1)) ∨
      (firstBit value bit = 0 ∧ value = 0) := by
  induction k generalizing bit with
  | zero =>
    rw [firstBit]
    by_cases hgt : bit > value
    · right
      rw [gt_iff_lt, UInt64.lt_iff_toNat_lt, hbit] at hgt
      have hvalue : value = 0 := UInt64.toNat_inj.mp (Nat.lt_one_iff.mp hgt)
      have hzero : bit >>> 2 = 0 := UInt64.toNat_inj.mp (by rw [toNat_quarter, hbit]; rfl)
      subst hvalue
      rw [dif_pos (UInt64.lt_iff_toNat_lt.mpr (by rw [hbit]; decide)), hzero, firstBit, dif_neg (by decide)]
      exact ⟨rfl, rfl⟩
    · left
      rw [dif_neg hgt]
      exact ⟨0, Nat.le_refl 0, hbit, h⟩
  | succ k ih =>
    rw [firstBit]
    by_cases hgt : bit > value
    · rw [dif_pos hgt]
      rw [gt_iff_lt, UInt64.lt_iff_toNat_lt, hbit] at hgt
      refine (ih (quarter_of_pow hbit) hgt).imp_left ?_
      grind
    · grind

/-- What a turn of the second loop keeps. -/
structure Rooting (v width root : Nat) (value result : UInt64) : Prop where
  rest : root * root + value.toNat = v
  shifted : result.toNat = root * width
  near : v < (root + width) * (root + width)
  small : root + width ≤ 2 ^ 32

theorem sqrtLoop_zero (value result : UInt64) : sqrtLoop value result 0 = pure result := by
  rw [sqrtLoop, dif_pos rfl]

theorem four_pow (k : Nat) : 4 ^ k = 2 ^ k * 2 ^ k := Nat.mul_pow 2 2 k

theorem sqrtLoop_turn {v x root : Nat} {value result bit : UInt64} (hx : 0 < x) (hbit : bit.toNat = x * x)
    (h : Rooting v (x * 2) root value result) :
    ∃ root' value' result', Rooting v x root' value' result' ∧
      sqrtLoop value result bit = sqrtLoop value' result' (bit >>> 2) := by
  obtain ⟨hrest, hshifted, hnear, hsmall⟩ := h
  have hsquare : (root + x) * (root + x) = root * root + (root * (x * 2) + x * x) := by ring
  have hless : (root + x) * (root + x) < 2 ^ 32 * 2 ^ 32 := Nat.mul_lt_mul'' (by omega) (by omega)
  have hsum : (result + bit).toNat = root * (x * 2) + x * x := by
    rw [UInt64.toNat_add, hshifted, hbit]
    exact Nat.mod_eq_of_lt (by omega)
  have hhalf : (result >>> 1).toNat = root * x := by
    rw [UInt64.toNat_shiftRight, Nat.shiftRight_eq_div_pow, hshifted, ← Nat.mul_assoc]
    exact Nat.mul_div_cancel _ (by decide)
  have hne : ¬ bit = 0 := by
    rintro rfl
    exact absurd hbit (Nat.mul_pos hx hx).ne
  rw [sqrtLoop, dif_neg hne, bind_of_eq_pure (add64 (by rw [hshifted, hbit]; omega))]
  by_cases hfits : value ≥ result + bit
  · have hle := UInt64.le_iff_toNat_le.mp hfits
    have hfew : (result >>> 1).toNat + bit.toNat < 2 ^ 64 := by
      have hgrow : root * x ≤ root * (x * 2) := Nat.mul_le_mul_left root (by omega)
      rw [hhalf, hbit]
      omega
    rw [if_pos hfits, bind_of_eq_pure (sub64 hle), bind_of_eq_pure (add64 hfew)]
    refine ⟨root + x, value - (result + bit), result >>> 1 + bit, ⟨?_, ?_, ?_, ?_⟩, rfl⟩
    · rw [UInt64.toNat_sub_of_le _ _ hfits]
      omega
    · rw [UInt64.toNat_add, Nat.mod_eq_of_lt hfew, hhalf, hbit, Nat.add_mul]
    · rwa [Nat.add_assoc, ← Nat.mul_two]
    · omega
  · have hlt : value.toNat < (result + bit).toNat := by
      rw [ge_iff_le, UInt64.le_iff_toNat_le] at hfits
      omega
    rw [if_neg hfits]
    refine ⟨root, value, result >>> 1, ⟨hrest, hhalf, ?_, ?_⟩, rfl⟩
    · omega
    · omega

theorem sqrtLoop_spec (k root : Nat) {v : Nat} {value result bit : UInt64} (hbit : bit.toNat = 4 ^ k)
    (h : Rooting v (2 ^ (k + 1)) root value result) :
    ∃ r : UInt64, sqrtLoop value result bit = pure r ∧ r.toNat * r.toNat ≤ v ∧
      v < (r.toNat + 1) * (r.toNat + 1) := by
  induction k generalizing root value result bit with
  | zero =>
    obtain ⟨root', value', result', hturn, hloop⟩ := sqrtLoop_turn Nat.one_pos hbit h
    have hzero : bit >>> 2 = 0 := UInt64.toNat_inj.mp (by rw [toNat_quarter, hbit]; rfl)
    have hresult : result'.toNat = root' := by rw [hturn.shifted, Nat.mul_one]
    refine ⟨result', by rw [hloop, hzero, sqrtLoop_zero], ?_, ?_⟩
    · rw [hresult, ← hturn.rest]
      exact Nat.le_add_right _ _
    · rw [hresult]
      exact hturn.near
  | succ k ih =>
    obtain ⟨root', value', result', hturn, hloop⟩ :=
      sqrtLoop_turn (Nat.two_pow_pos (k + 1)) (hbit.trans (four_pow _)) h
    rw [hloop]
    exact ih root' (quarter_of_pow hbit) hturn

/-- The root is the integer root, and no sum or difference wraps. -/
theorem the_root_is_the_integer_root (value : UInt64) :
    (mvh_integer_sqrt_u64 value).exact = true ∧
      (mvh_integer_sqrt_u64 value).value.toNat * (mvh_integer_sqrt_u64 value).value.toNat ≤ value.toNat ∧
      value.toNat < ((mvh_integer_sqrt_u64 value).value.toNat + 1) *
        ((mvh_integer_sqrt_u64 value).value.toNat + 1) := by
  have hroot : ∃ r : UInt64, mvh_integer_sqrt_u64 value = pure r ∧ r.toNat * r.toNat ≤ value.toNat ∧
      value.toNat < (r.toNat + 1) * (r.toNat + 1) := by
    have hfirst : ((1 : UInt64) <<< 62).toNat = 4 ^ 31 := by decide
    unfold mvh_integer_sqrt_u64
    rcases firstBit_spec value 31 hfirst value.toNat_lt with ⟨k, hk, hbit, hvalue⟩ | ⟨hbit, rfl⟩
    · have hpow : 2 ^ (k + 1) ≤ 2 ^ 32 := Nat.pow_le_pow_right (by decide) (by omega)
      refine sqrtLoop_spec k 0 hbit ⟨?_, ?_, ?_, ?_⟩
      · rw [Nat.mul_zero, Nat.zero_add]
      · rw [Nat.zero_mul]
        rfl
      · rwa [Nat.zero_add, ← four_pow]
      · rwa [Nat.zero_add]
    · rw [hbit]
      exact ⟨0, sqrtLoop_zero 0 0, by decide, by decide⟩
  obtain ⟨r, hr, hlow, hhigh⟩ := hroot
  rw [hr]
  exact ⟨rfl, hlow, hhigh⟩

/-! ## The signed product -/

theorem toNat_toUInt64 {value : Int64} (h : 0 ≤ value.toInt) : (value.toUInt64.toNat : Int) = value.toInt := by
  have hbits : value.toInt = if 2 * value.toUInt64.toNat < 2 ^ 64 then (value.toUInt64.toNat : Int)
      else (value.toUInt64.toNat : Int) - 2 ^ 64 := BitVec.toInt_eq_toNat_cond value.toBitVec
  have hlt := value.toUInt64.toNat_lt
  omega

theorem abs_eq (value : Int64) : ∃ a : UInt64, mvh_abs_i64 value = pure a ∧ a.toNat = value.toInt.natAbs := by
  have hlow : -2 ^ 63 ≤ value.toInt := value.le_toInt
  unfold mvh_abs_i64
  by_cases hneg : value < 0
  · have hless : value.toInt < 0 := Int64.lt_iff_toInt_lt.mp hneg
    have hup : (value + 1).toInt = value.toInt + 1 := by
      rw [Int64.toInt_add]
      exact Int.bmod_eq_of_le (by show -2 ^ 63 ≤ value.toInt + 1; omega) (by show value.toInt + 1 < 2 ^ 63; omega)
    have hturned : (-(value + 1)).toInt = -(value.toInt + 1) := by
      rw [Int64.toInt_neg, hup]
      exact Int.bmod_eq_of_le (by show -2 ^ 63 ≤ -(value.toInt + 1); omega)
        (by show -(value.toInt + 1) < 2 ^ 63; omega)
    have hcast : ((-(value + 1)).toUInt64.toNat : Int) = (-(value + 1)).toInt := toNat_toUInt64 (by omega)
    have hadd : add value 1 = pure (value + 1) := note_exact hup
    have hnegate : neg (value + 1) = pure (-(value + 1)) := note_exact (hturned.trans (congrArg _ hup.symm))
    have hsum : (-(value + 1)).toUInt64.toNat + (1 : UInt64).toNat < 2 ^ 64 := by
      show _ + 1 < _
      omega
    rw [if_pos hneg, bind_of_eq_pure hadd, bind_of_eq_pure hnegate, bind_of_eq_pure (note_exact hcast),
      add64 hsum]
    refine ⟨_, rfl, ?_⟩
    rw [UInt64.toNat_add, Nat.mod_eq_of_lt hsum]
    show _ + 1 = _
    omega
  · have hnonneg : 0 ≤ value.toInt := Int.not_lt.mp fun h => hneg (Int64.lt_iff_toInt_lt.mpr h)
    have hcast := toNat_toUInt64 hnonneg
    rw [if_neg hneg, note_exact hcast]
    exact ⟨_, rfl, by omega⟩

theorem mul_eq_signed (l r : Int) :
    l * r = if (decide (l < 0) != decide (r < 0)) then -((l.natAbs * r.natAbs : Nat) : Int)
      else (l.natAbs * r.natAbs : Nat) := by
  rw [← Int.natAbs_mul]
  by_cases hl : l < 0 <;> by_cases hr : r < 0
  · rw [decide_eq_true hl, decide_eq_true hr]
    exact (Int.natAbs_of_nonneg (Int.mul_pos_of_neg_of_neg hl hr).le).symm
  · rw [decide_eq_true hl, decide_eq_false hr]
    have hsign := Int.mul_nonpos_of_nonpos_of_nonneg hl.le (Int.not_lt.mp hr)
    exact Int.eq_neg_comm.mp (Int.ofNat_natAbs_of_nonpos hsign)
  · rw [decide_eq_false hl, decide_eq_true hr]
    have hsign := Int.mul_nonpos_of_nonneg_of_nonpos (Int.not_lt.mp hl) hr.le
    exact Int.eq_neg_comm.mp (Int.ofNat_natAbs_of_nonpos hsign)
  · rw [decide_eq_false hl, decide_eq_false hr]
    exact (Int.natAbs_of_nonneg (Int.mul_nonneg (Int.not_lt.mp hl) (Int.not_lt.mp hr))).symm

/-- The product is stored exactly when it is in the range of the signed words. -/
theorem the_signed_product_is_exact (left right old : Int64) :
    (mvh_checked_mul_i64 left right (some old)).exact = true ∧
      (-2 ^ 63 ≤ left.toInt * right.toInt ∧ left.toInt * right.toInt ≤ 2 ^ 63 - 1 →
        ∃ product : Int64, (mvh_checked_mul_i64 left right (some old)).value = (0, some product) ∧
          product.toInt = left.toInt * right.toInt) ∧
      (¬ (-2 ^ 63 ≤ left.toInt * right.toInt ∧ left.toInt * right.toInt ≤ 2 ^ 63 - 1) →
        (mvh_checked_mul_i64 left right (some old)).value = (-1, some old)) := by
  obtain ⟨a, ha, hleft⟩ := abs_eq left
  obtain ⟨b, hb, hright⟩ := abs_eq right
  have hsign : (decide (left < 0) != decide (right < 0)) =
      (decide (left.toInt < 0) != decide (right.toInt < 0)) := by
    simp only [Int64.lt_iff_toInt_lt]
    rfl
  have hproduct := mul_eq_signed left.toInt right.toInt
  rw [← hleft, ← hright, ← hsign] at hproduct
  unfold mvh_checked_mul_i64
  simp only
  rw [bind_of_eq_pure ha, bind_of_eq_pure hb, hproduct, signed_in_range_iff]
  generalize (decide (left < 0) != decide (right < 0)) = negative
  have hlimit : (if negative then (1 : UInt64) <<< 63 else INT64_MAX.toUInt64).toNat = limitOf negative := by
    cases negative <;> rfl
  have htest : (b ≠ 0 ∧ a > (if negative then (1 : UInt64) <<< 63 else INT64_MAX.toUInt64) / b) ↔
      ¬ a.toNat * b.toNat ≤ limitOf negative := by
    by_cases hzero : b = 0
    · rw [hzero]
      simp
    · have hpos : 0 < b.toNat := Nat.pos_of_ne_zero fun h0 => hzero (UInt64.toNat_inj.mp h0)
      rw [gt_iff_lt, UInt64.lt_iff_toNat_lt, UInt64.toNat_div, hlimit, Nat.div_lt_iff_lt_mul hpos]
      exact ⟨fun h => Nat.not_le.mpr h.2, fun h => ⟨hzero, Nat.not_le.mp h⟩⟩
  by_cases hfits : a.toNat * b.toNat ≤ limitOf negative
  · have hless : a.toNat * b.toNat < 2 ^ 64 := Nat.lt_of_le_of_lt hfits (by cases negative <;> decide)
    have hword : (a * b).toNat = a.toNat * b.toNat := by rw [UInt64.toNat_mul, Nat.mod_eq_of_lt hless]
    obtain ⟨product, hsigned, hvalue⟩ := signed_eq (hword.trans_le hfits)
    rw [if_neg fun h => htest.mp h hfits, bind_of_eq_pure (mul64 hless), bind_of_eq_pure hsigned]
    rw [hword] at hvalue
    exact ⟨rfl, fun _ => ⟨product, rfl, hvalue⟩, fun h => absurd hfits h⟩
  · rw [if_pos (htest.mpr hfits)]
    exact ⟨rfl, fun h => absurd h hfits, fun _ => rfl⟩

end mvh.util
