-- Flat byte memory: one byte at each address, the little-endian words that programs keep
-- in it, and buffers of a fixed size cut out of it.
import MvhKernel.Words
import Mathlib

namespace flat_memory

abbrev Mem := Nat → UInt8

/-! ## Loads and stores -/

def setByte (m : Mem) (a : Nat) (v : UInt8) : Mem := fun x => if x = a then v else m x

def shift (m : Mem) (a : Nat) : Mem := fun x => m (a + x)

def load16 (m : Mem) (a : Nat) : UInt16 := (m a).toUInt16 ||| ((m (a + 1)).toUInt16 <<< 8)

def load32 (m : Mem) (a : Nat) : UInt32 :=
  (m a).toUInt32 ||| ((m (a + 1)).toUInt32 <<< 8) |||
    ((m (a + 2)).toUInt32 <<< 16) ||| ((m (a + 3)).toUInt32 <<< 24)

def load64 (m : Mem) (a : Nat) : UInt64 :=
  (load32 m a).toUInt64 ||| ((load32 m (a + 4)).toUInt64 <<< 32)

def store32 (m : Mem) (a : Nat) (v : UInt32) : Mem :=
  setByte (setByte (setByte (setByte m a v.toUInt8) (a + 1) (v >>> 8).toUInt8)
    (a + 2) (v >>> 16).toUInt8) (a + 3) (v >>> 24).toUInt8

def store64 (m : Mem) (a : Nat) (v : UInt64) : Mem :=
  store32 (store32 m a v.toUInt32) (a + 4) (v >>> 32).toUInt32

def fill (m : Mem) (a n : Nat) (v : UInt8) : Mem :=
  fun x => if a ≤ x ∧ x < a + n then v else m x

def copy (dst : Mem) (d : Nat) (src : Mem) (s n : Nat) : Mem :=
  fun x => if d ≤ x ∧ x < d + n then src (s + (x - d)) else dst x

def slice (m : Mem) (a n : Nat) : List UInt8 := (List.range n).map fun i => m (a + i)

@[simp, grind =] theorem shift_apply (m : Mem) (a x : Nat) : shift m a x = m (a + x) := rfl

@[simp, grind =] theorem setByte_same (m : Mem) (a : Nat) (v : UInt8) : setByte m a v a = v := by
  simp [setByte]

@[grind =] theorem setByte_ne (m : Mem) (a : Nat) (v : UInt8) {x : Nat} (h : x ≠ a) :
    setByte m a v x = m x := by
  simp [setByte, h]

@[grind =] theorem fill_inside (m : Mem) {a n x : Nat} (v : UInt8) (h1 : a ≤ x) (h2 : x < a + n) :
    fill m a n v x = v := by
  simp [fill, h1, h2]

@[grind =] theorem fill_outside (m : Mem) {a n x : Nat} (v : UInt8) (h : x < a ∨ a + n ≤ x) :
    fill m a n v x = m x := by
  have : ¬ (a ≤ x ∧ x < a + n) := by omega
  simp [fill, this]

@[grind =] theorem copy_inside (dst src : Mem) {d s n x : Nat} (h1 : d ≤ x) (h2 : x < d + n) :
    copy dst d src s n x = src (s + (x - d)) := by
  simp [copy, h1, h2]

@[grind =] theorem copy_outside (dst src : Mem) {d s n x : Nat} (h : x < d ∨ d + n ≤ x) :
    copy dst d src s n x = dst x := by
  have : ¬ (d ≤ x ∧ x < d + n) := by omega
  simp [copy, this]

@[grind =] theorem store32_outside (m : Mem) {a x : Nat} (v : UInt32) (h : x < a ∨ a + 4 ≤ x) :
    store32 m a v x = m x := by
  unfold store32
  grind

@[grind =] theorem store64_outside (m : Mem) {a x : Nat} (v : UInt64) (h : x < a ∨ a + 8 ≤ x) :
    store64 m a v x = m x := by
  unfold store64
  grind

/-! ## A word read back -/

theorem toNat_shiftLeft_byte (b : UInt8) {k : Nat} (hk : k ≤ 24) :
    (b.toUInt32 <<< UInt32.ofNat k).toNat = 2 ^ k * b.toNat := by
  have hb := b.toNat_lt
  have hl : 2 ^ k * b.toNat < 2 ^ 32 := by
    calc 2 ^ k * b.toNat ≤ 2 ^ 24 * 255 :=
          Nat.mul_le_mul (Nat.pow_le_pow_right (by decide) hk) (by omega)
      _ < 2 ^ 32 := by decide
  have hs : (UInt32.ofNat k).toNat % 32 = k := by
    rw [UInt32.toNat_ofNat']
    omega
  rw [UInt32.toNat_shiftLeft, UInt8.toNat_toUInt32, hs, Nat.shiftLeft_eq, Nat.mul_comm,
    Nat.mod_eq_of_lt hl]

theorem toNat_word (x y z w : UInt8) :
    (x.toUInt32 ||| (y.toUInt32 <<< 8) ||| (z.toUInt32 <<< 16) ||| (w.toUInt32 <<< 24)).toNat =
      x.toNat + 2 ^ 8 * y.toNat + 2 ^ 16 * z.toNat + 2 ^ 24 * w.toNat := by
  have hx := x.toNat_lt
  have hy := y.toNat_lt
  have hz := z.toNat_lt
  have h8 : (y.toUInt32 <<< 8).toNat = 2 ^ 8 * y.toNat := toNat_shiftLeft_byte y (by decide)
  have h16 : (z.toUInt32 <<< 16).toNat = 2 ^ 16 * z.toNat := toNat_shiftLeft_byte z (by decide)
  have h24 : (w.toUInt32 <<< 24).toNat = 2 ^ 24 * w.toNat := toNat_shiftLeft_byte w (by decide)
  -- bits that do not overlap are added
  have ha {low k : Nat} (hl : low < 2 ^ k) (high : Nat) :
      low ||| 2 ^ k * high = low + 2 ^ k * high := by
    rw [Nat.or_comm, ← Nat.two_pow_add_eq_or_of_lt hl, Nat.add_comm]
  have hl1 : x.toNat + 2 ^ 8 * y.toNat < 2 ^ 16 := by omega
  have hl2 : x.toNat + 2 ^ 8 * y.toNat + 2 ^ 16 * z.toNat < 2 ^ 24 := by omega
  rw [UInt32.toNat_or, UInt32.toNat_or, UInt32.toNat_or, h8, h16, h24, UInt8.toNat_toUInt32, ha hx,
    ha hl1, ha hl2]

theorem word_of_bytes (v : UInt32) :
    v.toUInt8.toUInt32 ||| ((v >>> 8).toUInt8.toUInt32 <<< 8) |||
      ((v >>> 16).toUInt8.toUInt32 <<< 16) ||| ((v >>> 24).toUInt8.toUInt32 <<< 24) = v := by
  have hv := v.toNat_lt
  rw [← UInt32.toNat_inj, toNat_word]
  simp only [UInt32.toNat_toUInt8, UInt32.toNat_shiftRight, UInt32.reduceToNat,
    Nat.shiftRight_eq_div_pow, Nat.reduceMod, Nat.reducePow]
  omega

theorem word_of_halves (v : UInt64) :
    v.toUInt32.toUInt64 ||| ((v >>> 32).toUInt32.toUInt64 <<< 32) = v := by
  have hv := v.toNat_lt
  have hh : ((v >>> 32).toUInt32.toUInt64 <<< 32).toNat = 2 ^ 32 * (v.toNat / 2 ^ 32) := by
    simp only [UInt32.toNat_toUInt64, UInt64.toNat_toUInt32, UInt64.toNat_shiftLeft,
      UInt64.toNat_shiftRight, UInt64.reduceToNat, Nat.shiftRight_eq_div_pow, Nat.shiftLeft_eq,
      Nat.reduceMod]
    omega
  have hl : v.toNat % 2 ^ 32 < 2 ^ 32 := Nat.mod_lt _ (by decide)
  rw [← UInt64.toNat_inj, UInt64.toNat_or, UInt32.toNat_toUInt64, UInt64.toNat_toUInt32, hh,
    Nat.or_comm, ← Nat.two_pow_add_eq_or_of_lt hl]
  exact Nat.div_add_mod _ _

theorem load32_congr {m m' : Mem} {a a' : Nat} (h : ∀ i < 4, m (a + i) = m' (a' + i)) :
    load32 m a = load32 m' a' := by
  have h0 := h 0 (by omega)
  simp only [Nat.add_zero] at h0
  simp [h0, h, load32]

theorem load64_congr {m m' : Mem} {a a' : Nat} (h : ∀ i < 8, m (a + i) = m' (a' + i)) :
    load64 m a = load64 m' a' := by
  have hl : load32 m a = load32 m' a' := load32_congr fun i hi => h i (by omega)
  have hh : load32 m (a + 4) = load32 m' (a' + 4) := by
    apply load32_congr
    intro i hi
    rw [Nat.add_assoc, Nat.add_assoc]
    exact h (4 + i) (by omega)
  unfold load64
  rw [hl, hh]

@[simp] theorem load32_shift (m : Mem) (a b : Nat) : load32 (shift m a) b = load32 m (a + b) :=
  load32_congr fun i _ => by simp [Nat.add_assoc]

@[simp] theorem load64_shift (m : Mem) (a b : Nat) : load64 (shift m a) b = load64 m (a + b) :=
  load64_congr fun i _ => by simp [Nat.add_assoc]

@[simp, grind =] theorem load32_store32 (m : Mem) (a : Nat) (v : UInt32) :
    load32 (store32 m a v) a = v := by
  have h : load32 (store32 m a v) a = v.toUInt8.toUInt32 ||| ((v >>> 8).toUInt8.toUInt32 <<< 8) |||
      ((v >>> 16).toUInt8.toUInt32 <<< 16) ||| ((v >>> 24).toUInt8.toUInt32 <<< 24) := by
    simp [load32, store32, setByte]
  rw [h, word_of_bytes]

@[grind =] theorem load32_store32_ne (m : Mem) {a b : Nat} (v : UInt32) (h : b + 4 ≤ a ∨ a + 4 ≤ b) :
    load32 (store32 m a v) b = load32 m b :=
  load32_congr fun i hi => store32_outside m v (by omega)

@[grind =] theorem load64_store32_ne (m : Mem) {a b : Nat} (v : UInt32) (h : b + 8 ≤ a ∨ a + 4 ≤ b) :
    load64 (store32 m a v) b = load64 m b :=
  load64_congr fun i hi => store32_outside m v (by omega)

@[simp, grind =] theorem load64_store64 (m : Mem) (a : Nat) (v : UInt64) :
    load64 (store64 m a v) a = v := by
  unfold load64 store64
  grind [load32_store32_ne, load32_store32, word_of_halves]

@[grind =] theorem load32_store64_ne (m : Mem) {a b : Nat} (v : UInt64) (h : b + 4 ≤ a ∨ a + 8 ≤ b) :
    load32 (store64 m a v) b = load32 m b :=
  load32_congr fun i hi => store64_outside m v (by omega)

@[grind =] theorem load64_store64_ne (m : Mem) {a b : Nat} (v : UInt64) (h : b + 8 ≤ a ∨ a + 8 ≤ b) :
    load64 (store64 m a v) b = load64 m b :=
  load64_congr fun i hi => store64_outside m v (by omega)

/-! ## Words one after the other -/

def place (m : Mem) : Nat → List UInt32 → Mem
  | _, [] => m
  | a, word :: words => store32 (place m (a + 4) words) a word

@[simp, grind =] theorem slice_length (m : Mem) (a n : Nat) : (slice m a n).length = n := by
  simp [slice]

@[simp, grind =] theorem slice_zero (m : Mem) (a : Nat) : slice m a 0 = [] := rfl

theorem slice_congr {m m' : Mem} {a a' n : Nat} (h : ∀ i < n, m (a + i) = m' (a' + i)) :
    slice m a n = slice m' a' n := by
  unfold slice
  grind [List.map_congr_left]

theorem slice_append (m : Mem) (a n k : Nat) :
    slice m a (n + k) = slice m a n ++ slice m (a + n) k := by
  unfold slice
  simp [List.range_add, List.map_append, List.map_map, Nat.add_assoc]

theorem slice_getElem? (m : Mem) (a : Nat) {n i : Nat} (h : i < n) :
    (slice m a n)[i]? = some (m (a + i)) := by
  simp [slice, h]

theorem slice_inj {m m' : Mem} {a a' n : Nat} (h : slice m a n = slice m' a' n) :
    ∀ i < n, m (a + i) = m' (a' + i) := by
  intro i hi
  have h1 := slice_getElem? m a hi
  grind [slice_getElem?, Option.some.inj]

/-! ## Buffers -/

def Buffer (n : Nat) := Fin n → UInt8

namespace Buffer

variable {n : Nat}

def bytes (b : Buffer n) : Mem := fun i => if h : i < n then b ⟨i, h⟩ else 0

def ofMem (n : Nat) (m : Mem) : Buffer n := fun j => m j.val

@[simp] theorem ofMem_bytes (b : Buffer n) : ofMem n b.bytes = b := by
  funext j
  simp [ofMem, bytes]

theorem bytes_ofMem (m : Mem) {i : Nat} (h : i < n) : (ofMem n m).bytes i = m i := by
  simp [ofMem, bytes, h]

theorem ofMem_congr {m m' : Mem} (h : ∀ i < n, m i = m' i) : ofMem n m = ofMem n m' := by
  funext j
  exact h j.val j.isLt

theorem ext_bytes {b c : Buffer n} (h : ∀ i < n, b.bytes i = c.bytes i) : b = c := by
  rw [← ofMem_bytes b, ← ofMem_bytes c]
  exact ofMem_congr h

theorem load32_ofMem (m : Mem) {a : Nat} (h : a + 4 ≤ n) :
    load32 (ofMem n m).bytes a = load32 m a :=
  load32_congr fun i _ => bytes_ofMem m (by omega)

theorem load64_ofMem (m : Mem) {a : Nat} (h : a + 8 ≤ n) :
    load64 (ofMem n m).bytes a = load64 m a :=
  load64_congr fun i _ => bytes_ofMem m (by omega)

end Buffer

end flat_memory
