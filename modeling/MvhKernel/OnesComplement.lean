-- Ones' complement sums of 16-bit words: the carries out of the low half come around to
-- the bottom.
import MvhKernel.BigEndian

open flat_memory (Mem)
open big_endian

namespace ones_complement

/-! ## Carries -/

def endAround (s : Nat) : Nat := if s = 0 then 0 else (s - 1) % 65535 + 1

theorem endAround_le (s : Nat) : endAround s ≤ 65535 := by
  unfold endAround
  split <;> omega

theorem endAround_of_lt {s : Nat} (h : s < 65536) : endAround s = s := by
  unfold endAround
  split <;> omega

theorem endAround_mod (s : Nat) : endAround s % 65535 = s % 65535 := by
  unfold endAround
  split <;> omega

theorem endAround_congr {s t : Nat} (hs : 0 < s) (ht : 0 < t) (h : s % 65535 = t % 65535) :
    endAround s = endAround t := by
  unfold endAround
  split <;> split <;> omega

theorem endAround_carry (s : Nat) : endAround (s % 65536 + s / 65536) = endAround s := by
  rcases Nat.eq_zero_or_pos s with rfl | hs
  · rfl
  · exact endAround_congr (by omega) hs (by omega)

theorem endAround_eq_ones_iff {s : Nat} : endAround s = 65535 ↔ 0 < s ∧ s % 65535 = 0 := by
  unfold endAround
  split <;> omega

theorem endAround_complement (s : Nat) : endAround (s + (65535 - endAround s)) = 65535 := by
  have hle := endAround_le s
  have hm := endAround_mod s
  grind [endAround_eq_ones_iff]

theorem endAround_endAround_add (s t : Nat) : endAround (endAround s + t) = endAround (s + t) := by
  have hm := endAround_mod s
  grind [endAround, endAround_congr]

/-! ## Sums word by word -/

def addAround (s w : Nat) : Nat := (s + w) % 65536 + (s + w) / 65536

def sumAround (ws : List Nat) : Nat := ws.foldl addAround 0

theorem addAround_eq {s w : Nat} (hs : s < 65536) (hw : w < 65536) : addAround s w = endAround (s + w) := by
  unfold addAround
  rw [← endAround_carry, endAround_of_lt (by omega)]

theorem foldl_addAround {ws : List Nat} (hws : ∀ w ∈ ws, w < 65536) {s : Nat} (hs : s < 65536) :
    ws.foldl addAround s = endAround (s + ws.sum) := by
  induction ws generalizing s with
  | nil => exact (endAround_of_lt hs).symm
  | cons w ws ih =>
    have hle := endAround_le (s + w)
    have hw := hws w List.mem_cons_self
    rw [List.foldl_cons, addAround_eq hs hw, ih (fun w hw => hws w (List.mem_cons_of_mem _ hw)) (by omega),
      endAround_endAround_add, List.sum_cons, Nat.add_assoc]

theorem sumAround_eq {ws : List Nat} (hws : ∀ w ∈ ws, w < 65536) : sumAround ws = endAround ws.sum := by
  unfold sumAround
  rw [foldl_addAround hws (by decide), Nat.zero_add]

/-! ## Carries in a machine word -/

/-- One turn: the upper half of a word is added to its lower half. -/
def carry (s : UInt32) : UInt32 := (s &&& (0xFFFF : UInt32)) + (s >>> 16)

/-- The turns go on while there is an upper half. -/
def carryLoop : Nat → UInt32 → UInt32
  | 0, s => s
  | fuel + 1, s => if s >>> 16 ≠ 0 then carryLoop fuel (carry s) else s

theorem toNat_upper (s : UInt32) : (s >>> 16).toNat = s.toNat / 65536 := by
  rw [UInt32.toNat_shiftRight]
  exact Nat.shiftRight_eq_div_pow _ 16

theorem toNat_carry (s : UInt32) : (carry s).toNat = s.toNat % 65536 + s.toNat / 65536 := by
  have hl : (s &&& 0xFFFF).toNat = s.toNat % 65536 := by
    rw [UInt32.toNat_and]
    exact Nat.and_two_pow_sub_one_eq_mod _ 16
  grind [carry, UInt32.toNat_add, toNat_upper, Nat.mod_eq_of_lt]

theorem carryLoop_of_lt (f : Nat) {s : UInt32} (h : s.toNat < 65536) : carryLoop f s = s := by
  cases f with
  | zero => rfl
  | succ f => grind [UInt32.toNat_inj, toNat_upper, UInt32.toNat_zero, carryLoop]

theorem carryLoop_succ (f : Nat) (s : UInt32) :
    (carryLoop (f + 1) s).toNat = (carryLoop f (carry s)).toNat := by
  by_cases h : s.toNat < 65536
  · grind [UInt32.toNat_inj, toNat_carry, carryLoop_of_lt]
  · have hu : s >>> 16 ≠ 0 := by
      rw [ne_eq, ← UInt32.toNat_inj, toNat_upper, UInt32.toNat_zero]
      omega
    rw [carryLoop, if_pos hu]

theorem toNat_carryLoop (s : UInt32) : (carryLoop 2 s).toNat = endAround s.toNat := by
  have hlt := s.toNat_lt
  have h1 := toNat_carry s
  have h2 := toNat_carry (carry s)
  rw [carryLoop_succ, carryLoop_succ, carryLoop, ← endAround_carry, ← h1, ← endAround_carry, ← h2]
  exact (endAround_of_lt (by omega)).symm

/-! ## Sums over memory -/

/-- The sum of the words in `n` bytes from address `a` on. -/
def wordSum (m : Mem) : Nat → Nat → Nat
  | 0, _ => 0
  | 1, a => 256 * (m a).toNat
  | n + 2, a => (load16 m a).toNat + wordSum m n (a + 2)

theorem wordSum_le (m : Mem) (n a : Nat) : wordSum m n a ≤ 65535 * ((n + 1) / 2) := by
  induction n, a using wordSum.induct with
  | case1 a => simp [wordSum]
  | case2 a => grind [wordSum]
  | case3 n a ih => grind [wordSum, load16]

theorem wordSum_congr {m m' : Mem} (n a : Nat) (h : ∀ i, a ≤ i → i < a + n → m i = m' i) :
    wordSum m n a = wordSum m' n a := by
  induction n, a using wordSum.induct with
  | case1 a => rfl
  | case2 a => rw [wordSum, wordSum, h a (by omega) (by omega)]
  | case3 n a ih => grind [wordSum, load16_congr]

theorem wordSum_store16 (m : Mem) (v : UInt16) (n a k : Nat) (hk : 2 * k + 2 ≤ n) :
    wordSum (store16 m (a + 2 * k) v) n a + (load16 m (a + 2 * k)).toNat =
      wordSum m n a + v.toNat := by
  induction n, a using wordSum.induct generalizing k with
  | case1 a => omega
  | case2 a => omega
  | case3 n a ih =>
    rcases k with _ | k
    · have hr : wordSum (store16 m a v) n (a + 2) = wordSum m n (a + 2) := by grind [wordSum_congr]
      rw [Nat.mul_zero, Nat.add_zero, wordSum, wordSum, hr, load16_store16]
      omega
    · have hp : a + 2 * (k + 1) = a + 2 + 2 * k := by omega
      have hr := ih k (by omega)
      grind [wordSum, load16_store16_ne]

def words (m : Mem) : Nat → Nat → List Nat
  | 0, _ => []
  | 1, a => [256 * (m a).toNat]
  | n + 2, a => (load16 m a).toNat :: words m n (a + 2)

theorem sum_words (m : Mem) (n a : Nat) : (words m n a).sum = wordSum m n a := by
  induction n, a using words.induct with
  | case1 a => rfl
  | case2 a => rfl
  | case3 n a ih => rw [words, wordSum, List.sum_cons, ih]

theorem words_lt (m : Mem) (n a : Nat) : ∀ w ∈ words m n a, w < 65536 := by
  induction n, a using words.induct with
  | case1 a => exact fun _ hw => absurd hw List.not_mem_nil
  | case2 a =>
    intro w hw
    have := (m a).toNat_lt
    rw [List.mem_singleton.mp hw]
    omega
  | case3 n a ih =>
    intro w hw
    rcases List.mem_cons.mp hw with rfl | hw
    · exact (load16 m a).toNat_lt
    · exact ih w hw

theorem sumAround_words (m : Mem) (n a : Nat) : sumAround (words m n a) = endAround (wordSum m n a) := by
  rw [sumAround_eq (words_lt m n a), sum_words]

end ones_complement
