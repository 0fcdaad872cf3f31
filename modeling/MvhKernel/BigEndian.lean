-- Big-endian words in flat memory, as network headers keep them: what is stored is read
-- back, and a store changes no other byte.
import MvhKernel.FlatMemory

open flat_memory (Mem setByte setByte_ne shift copy copy_outside setByte_same toNat_word
  word_of_bytes)

namespace big_endian

def load16 (m : Mem) (a : Nat) : UInt16 := ((m a).toUInt16 <<< 8) ||| (m (a + 1)).toUInt16

def load32 (m : Mem) (a : Nat) : UInt32 :=
  ((m a).toUInt32 <<< 24) ||| ((m (a + 1)).toUInt32 <<< 16) |||
    ((m (a + 2)).toUInt32 <<< 8) ||| (m (a + 3)).toUInt32

def store16 (m : Mem) (a : Nat) (v : UInt16) : Mem :=
  setByte (setByte m a (v >>> 8).toUInt8) (a + 1) v.toUInt8

def store32 (m : Mem) (a : Nat) (v : UInt32) : Mem :=
  setByte (setByte (setByte (setByte m a (v >>> 24).toUInt8) (a + 1) (v >>> 16).toUInt8)
    (a + 2) (v >>> 8).toUInt8) (a + 3) v.toUInt8

/-! ## Other bytes -/

@[grind =] theorem store16_outside (m : Mem) {a x : Nat} (v : UInt16) (h : x < a ∨ a + 2 ≤ x) :
    store16 m a v x = m x := by
  unfold store16
  grind

@[grind =] theorem store32_outside (m : Mem) {a x : Nat} (v : UInt32) (h : x < a ∨ a + 4 ≤ x) :
    store32 m a v x = m x := by
  unfold store32
  grind

theorem load16_congr {m m' : Mem} {a a' : Nat} (h : ∀ i < 2, m (a + i) = m' (a' + i)) :
    load16 m a = load16 m' a' := by
  have h0 := h 0 (by omega)
  simp only [Nat.add_zero] at h0
  unfold load16
  rw [h0, h 1 (by omega)]

theorem load32_congr {m m' : Mem} {a a' : Nat} (h : ∀ i < 4, m (a + i) = m' (a' + i)) :
    load32 m a = load32 m' a' := by
  have h0 := h 0 (by omega)
  simp only [Nat.add_zero] at h0
  simp [h0, h, load32]

@[simp] theorem load16_shift (m : Mem) (a b : Nat) : load16 (shift m a) b = load16 m (a + b) :=
  load16_congr fun i _ => by simp [Nat.add_assoc]

@[simp] theorem load32_shift (m : Mem) (a b : Nat) : load32 (shift m a) b = load32 m (a + b) :=
  load32_congr fun i _ => by simp [Nat.add_assoc]

theorem toNat_load16 (m : Mem) (a : Nat) : (load16 m a).toNat = 256 * (m a).toNat + (m (a + 1)).toNat := by
  have hh := (m a).toNat_lt
  have hl := (m (a + 1)).toNat_lt
  have hor := Nat.shiftLeft_add_eq_or_of_lt hl (m a).toNat
  unfold load16
  simp only [UInt16.toNat_or, UInt16.toNat_shiftLeft, UInt8.toNat_toUInt16, UInt16.toNat_ofNat, Nat.reducePow,
    Nat.reduceMod]
  rw [Nat.shiftLeft_eq] at hor ⊢
  grind

theorem or_reverse (a b c d : UInt32) : a ||| b ||| c ||| d = d ||| c ||| b ||| a := by
  ac_rfl

theorem toNat_load32 (m : Mem) (a : Nat) : (load32 m a).toNat =
    (m (a + 3)).toNat + 2 ^ 8 * (m (a + 2)).toNat + 2 ^ 16 * (m (a + 1)).toNat + 2 ^ 24 * (m a).toNat := by
  unfold load32
  rw [or_reverse, toNat_word]

/-! ## A word read back -/

theorem word32_of_bytes (v : UInt32) :
    ((v >>> 24).toUInt8.toUInt32 <<< 24) ||| ((v >>> 16).toUInt8.toUInt32 <<< 16) |||
      ((v >>> 8).toUInt8.toUInt32 <<< 8) ||| v.toUInt8.toUInt32 = v :=
  (or_reverse _ _ _ _).trans (word_of_bytes v)

@[simp, grind =] theorem load16_store16 (m : Mem) (a : Nat) (v : UInt16) : load16 (store16 m a v) a = v := by
  have hv := v.toNat_lt
  have hh : store16 m a v a = (v >>> 8).toUInt8 := by simp [store16, setByte]
  have hl : store16 m a v (a + 1) = v.toUInt8 := by simp [store16]
  rw [← UInt16.toNat_inj, toNat_load16, hh, hl]
  simp only [UInt16.toNat_toUInt8, UInt16.toNat_shiftRight, UInt16.toNat_ofNat, Nat.shiftRight_eq_div_pow,
    Nat.reduceMod, Nat.reducePow]
  omega

@[simp, grind =] theorem load32_store32 (m : Mem) (a : Nat) (v : UInt32) : load32 (store32 m a v) a = v := by
  have h : load32 (store32 m a v) a =
      ((v >>> 24).toUInt8.toUInt32 <<< 24) ||| ((v >>> 16).toUInt8.toUInt32 <<< 16) |||
        ((v >>> 8).toUInt8.toUInt32 <<< 8) ||| v.toUInt8.toUInt32 := by
    simp [load32, store32, setByte]
  rw [h, word32_of_bytes]

@[grind =] theorem load16_store16_ne (m : Mem) {a b : Nat} (v : UInt16) (h : b + 2 ≤ a ∨ a + 2 ≤ b) :
    load16 (store16 m a v) b = load16 m b :=
  load16_congr fun i hi => store16_outside m v (by omega)

@[grind =] theorem load16_store32_ne (m : Mem) {a b : Nat} (v : UInt32) (h : b + 2 ≤ a ∨ a + 4 ≤ b) :
    load16 (store32 m a v) b = load16 m b :=
  load16_congr fun i hi => store32_outside m v (by omega)

@[grind =] theorem load32_store16_ne (m : Mem) {a b : Nat} (v : UInt16) (h : b + 4 ≤ a ∨ a + 2 ≤ b) :
    load32 (store16 m a v) b = load32 m b :=
  load32_congr fun i hi => store16_outside m v (by omega)

@[grind =] theorem load32_store32_ne (m : Mem) {a b : Nat} (v : UInt32) (h : b + 4 ≤ a ∨ a + 4 ≤ b) :
    load32 (store32 m a v) b = load32 m b :=
  load32_congr fun i hi => store32_outside m v (by omega)

@[grind =] theorem load16_setByte_ne (m : Mem) {a b : Nat} (v : UInt8) (h : a < b ∨ b + 2 ≤ a) :
    load16 (setByte m a v) b = load16 m b :=
  load16_congr fun i hi => setByte_ne m a v (by omega)

@[grind =] theorem load16_copy_ne (m m' : Mem) {d s n b : Nat} (h : b + 2 ≤ d ∨ d + n ≤ b) :
    load16 (copy m d m' s n) b = load16 m b :=
  load16_congr fun i hi => copy_outside m m' (by omega)

@[grind =] theorem load32_copy_ne (m m' : Mem) {d s n b : Nat} (h : b + 4 ≤ d ∨ d + n ≤ b) :
    load32 (copy m d m' s n) b = load32 m b :=
  load32_congr fun i hi => copy_outside m m' (by omega)

/-! ## Bytes written back -/

theorem store16_load16 (m m' : Mem) (a b : Nat) {i : Nat} (hi : i < 2) :
    store16 m a (load16 m' b) (a + i) = m' (b + i) := by
  have hh := (m' b).toNat_lt
  have hl := (m' (b + 1)).toNat_lt
  have hw := toNat_load16 m' b
  rw [← UInt8.toNat_inj]
  rcases (by omega : i = 0 ∨ i = 1) with rfl | rfl
  · simp only [store16, setByte, Nat.add_zero, Nat.left_eq_add, one_ne_zero, if_false, if_true,
      UInt16.toNat_toUInt8, UInt16.toNat_shiftRight, UInt16.toNat_ofNat, Nat.shiftRight_eq_div_pow,
      Nat.reduceMod, Nat.reducePow]
    omega
  · simp only [store16, setByte_same, UInt16.toNat_toUInt8]
    omega

theorem store32_load32 (m m' : Mem) (a b : Nat) {i : Nat} (hi : i < 4) :
    store32 m a (load32 m' b) (a + i) = m' (b + i) := by
  have h0 := (m' b).toNat_lt
  have h1 := (m' (b + 1)).toNat_lt
  have h2 := (m' (b + 2)).toNat_lt
  have h3 := (m' (b + 3)).toNat_lt
  have hw := toNat_load32 m' b
  generalize load32 m' b = v at hw ⊢
  have hb (k : Nat) (hk : k < 32) : ((v >>> UInt32.ofNat k).toUInt8).toNat = v.toNat / 2 ^ k % 2 ^ 8 := by
    have hs : (UInt32.ofNat k).toNat % 32 = k := by
      rw [UInt32.toNat_ofNat']
      omega
    rw [UInt32.toNat_toUInt8, UInt32.toNat_shiftRight, hs, Nat.shiftRight_eq_div_pow]
  rw [← UInt8.toNat_inj]
  rcases (by omega : i = 0 ∨ i = 1 ∨ i = 2 ∨ i = 3) with rfl | rfl | rfl | rfl
  · have hat : store32 m a v (a + 0) = (v >>> UInt32.ofNat 24).toUInt8 := by simp [store32, setByte]
    rw [hat, hb 24 (by decide)]
    simp only [Nat.add_zero]
    omega
  · have hat : store32 m a v (a + 1) = (v >>> UInt32.ofNat 16).toUInt8 := by simp [store32, setByte]
    rw [hat, hb 16 (by decide)]
    omega
  · have hat : store32 m a v (a + 2) = (v >>> UInt32.ofNat 8).toUInt8 := by simp [store32, setByte]
    rw [hat, hb 8 (by decide)]
    omega
  · have hat : store32 m a v (a + 3) = v.toUInt8 := by simp [store32]
    grind

end big_endian
