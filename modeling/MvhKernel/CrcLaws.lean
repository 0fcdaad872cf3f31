-- What `crc32.c` computes: the remainder of a division of polynomials over two elements,
-- in whatever pieces the bytes come.
import MvhKernel.Crc32
import MvhKernel.ShiftRegister

open flat_memory shift_register Polynomial

namespace mvh.crc

/-! ## The register -/

def taps : BitVec 32 := 0xEDB88320#32

theorem crc32_bit_eq (vl : UInt32) : (crc32_bit vl).toBitVec = shiftOut taps vl.toBitVec := by
  have hm : ∀ v : UInt32, v = 0 ∨ v = 1 → (0xEDB88320 &&& (0 - v)).toBitVec =
      if v = 1 then taps else 0#32 := by
    rintro v (rfl | rfl) <;> decide
  have hl : vl &&& 1 = 0 ∨ vl &&& 1 = 1 := by
    grind [UInt32.toNat_inj, UInt32.toNat_and, UInt32.toNat_one, Nat.and_one_is_mod]
  have hb : (vl &&& 1 = 1) ↔ vl.toBitVec.getLsbD 0 = true := by
    rw [← UInt32.toNat_inj, UInt32.toNat_and, UInt32.toNat_one, Nat.and_one_is_mod,
      BitVec.getLsbD, UInt32.toNat_toBitVec, Nat.testBit_zero, decide_eq_true_iff]
  unfold crc32_bit shiftOut
  rw [UInt32.toBitVec_xor, hm _ hl]
  simp only [hb]
  rfl

theorem crc32_byte_eq (vl : UInt32) (byte : UInt8) :
    (crc32_byte vl byte).toBitVec = feed taps vl.toBitVec byte.toBitVec := by
  have ht : ∀ (n : Nat) (v : UInt32),
      (Nat.repeat crc32_bit n v).toBitVec = turns taps n v.toBitVec := by
    intro n v
    induction n with
    | zero => rfl
    | succ n ih => rw [Nat.repeat, crc32_bit_eq, ih]; rfl
  rw [crc32_byte, ht, UInt32.toBitVec_xor]
  rfl

def words (message : List UInt8) : List (BitVec 8) := message.map UInt8.toBitVec

theorem foldl_crc32_byte (m : List UInt8) (v : UInt32) :
    (m.foldl crc32_byte v).toBitVec = (words m).foldl (feed taps) v.toBitVec := by
  induction m generalizing v with
  | nil => rfl
  | cons byte m ih =>
    rw [List.foldl_cons, ih, crc32_byte_eq]
    rfl

theorem crc32_loop_eq (b : Mem) (s : Nat) (value : UInt32) :
    crc32_loop b s value = (slice b 0 s).foldl crc32_byte value := by
  unfold crc32_loop slice
  rw [List.foldl_map]
  simp only [Nat.zero_add]

/-! ## The division -/

noncomputable def crcPolynomial : (ZMod 2)[X] :=
  X ^ 32 + X ^ 26 + X ^ 23 + X ^ 22 + X ^ 16 + X ^ 12 + X ^ 11 + X ^ 10 + X ^ 8 + X ^ 7 + X ^ 5 + X ^ 4 +
    X ^ 2 + X + 1

/-- The polynomial of a message: the low bit of the first byte is the highest coefficient. -/
noncomputable def messagePolynomial (message : List UInt8) : (ZMod 2)[X] :=
  ofBits (message.flatMap fun byte => bitsOf byte.toBitVec)

noncomputable def reflected (p : (ZMod 2)[X]) : UInt32 :=
  ⟨BitVec.ofFnLE fun i : Fin 32 => decide (p.coeff (31 - i) = 1)⟩

theorem generator_taps : generator taps = crcPolynomial := by
  have hb : bitsOf taps = [false, false, false, false, false, true, false, false, true, true, false,
      false, false, false, false, true, false, false, false, true, true, true, false, true, true, false,
      true, true, false, true, true, true] := by decide
  unfold generator crcPolynomial
  rw [toPoly, hb]
  simp only [ofBits, coefficient, List.length_cons, List.length_nil, if_true, Bool.false_eq_true, if_false,
    map_one, map_zero]
  ring

theorem reflected_toPoly (v : UInt32) : reflected (toPoly v.toBitVec) = v := by
  have ho : ∀ b, coefficient b = 1 ↔ b = true := by decide
  apply UInt32.toBitVec_inj.mp
  apply BitVec.eq_of_getLsbD_eq
  intro i hi
  unfold reflected
  rw [BitVec.getLsbD_ofFnLE, dif_pos hi]
  have hc := coeff_toPoly v.toBitVec hi
  simp [hc, ho]

theorem toPoly_ones : toPoly (~~~ (0 : UInt32)).toBitVec = ∑ i ∈ Finset.range 32, X ^ i := by
  have hb : bitsOf (~~~ (0 : UInt32)).toBitVec = List.replicate 32 true := by decide
  rw [toPoly, hb, ofBits_replicate_true]

theorem messageBits_words (message : List UInt8) :
    ofBits (messageBits (words message)) = messagePolynomial message := by
  unfold messageBits words messagePolynomial
  rw [List.flatMap_map]

theorem foldl_crc32_byte_eq (m : List UInt8) :
    m.foldl crc32_byte (~~~ 0) = reflected ((messagePolynomial m * X ^ 32 +
      (∑ i ∈ Finset.range 32, X ^ i) * X ^ (8 * m.length)) %ₘ crcPolynomial) := by
  have hr := toPoly_foldl_feed taps (by decide) (by decide) (words m) (~~~ (0 : UInt32)).toBitVec
  have hl : (words m).length = m.length := List.length_map _
  grind [foldl_crc32_byte, messageBits_words, generator_taps, toPoly_ones, reflected_toPoly]

theorem foldl_crc32_update (c : List (Mem × Nat)) (p : UInt32) :
    c.foldl (fun crc chunk => crc32_update crc (some chunk.1) chunk.2) p =
      ~~~ (c.flatMap fun chunk => slice chunk.1 0 chunk.2).foldl crc32_byte (~~~ p) := by
  induction c generalizing p with
  | nil => simp
  | cons chunk c ih =>
    have hu : ~~~ crc32_update p (some chunk.1) chunk.2 =
        (slice chunk.1 0 chunk.2).foldl crc32_byte (~~~ p) := by
      rw [← crc32_loop_eq]
      exact UInt32.not_not
    grind

/-- In whatever pieces the bytes of a message come, the checksum is the one that the standard
defines: the complement of the reflected remainder. -/
theorem crc32_is_the_remainder (chunks : List (Mem × Nat)) :
    let message := chunks.flatMap fun chunk => slice chunk.1 0 chunk.2
    chunks.foldl (fun crc chunk => crc32_update crc (some chunk.1) chunk.2) 0 =
      ~~~ reflected ((messagePolynomial message * X ^ 32 +
        (∑ i ∈ Finset.range 32, X ^ i) * X ^ (8 * message.length)) %ₘ crcPolynomial) := by
  intro message
  rw [foldl_crc32_update, foldl_crc32_byte_eq]

/-! ## Bursts -/

/-- The first `size` bytes differ, but only inside four bytes in a row. -/
structure Burst (a b : Mem) (size : Nat) : Prop where
  differ : ∃ i < size, a i ≠ b i
  window : ∃ start, ∀ i < size, a i ≠ b i → start ≤ i ∧ i < start + 4

theorem Burst.crc32_ne {a b : Mem} {size : Nat} (h : Burst a b size) :
    crc32 (some a) size ≠ crc32 (some b) size := by
  intro hcr
  obtain ⟨s, hw⟩ := h.window
  obtain ⟨before, hbf⟩ : ∃ before, before = min s size := ⟨_, rfl⟩
  obtain ⟨wide, hwd⟩ : ∃ wide, wide = min 4 (size - before) := ⟨_, rfl⟩
  obtain ⟨after, ha⟩ : ∃ after, size = before + wide + after :=
    ⟨size - (before + wide), by omega⟩
  have hc : ∀ m : Mem, slice m 0 size =
      slice m 0 before ++ slice m before wide ++ slice m (before + wide) after := by
    simp [ha, slice_append, Nat.zero_add]
  have hs : ∀ i < size, i < before ∨ before + wide ≤ i → a i = b i := by grind
  have hf : slice a 0 before = slice b 0 before :=
    slice_congr fun i hi => by grind
  have hl : slice a (before + wide) after = slice b (before + wide) after := by grind [slice_congr]
  -- The registers are equal at the end, so the bytes of the window are equal.
  have hfl : (slice a 0 size).foldl crc32_byte (~~~ 0) = (slice b 0 size).foldl crc32_byte (~~~ 0) := by
    have hn : ~~~ crc32_loop a size (~~~ 0) = ~~~ crc32_loop b size (~~~ 0) := hcr
    simpa [← crc32_loop_eq] using UInt32.not_inj.mp hn
  have hb := congrArg UInt32.toBitVec hfl
  rw [foldl_crc32_byte, foldl_crc32_byte, hc a, hc b, hf, hl] at hb
  simp only [words, List.map_append] at hb
  have hwr := foldl_feed_window taps (by decide) (by decide) (by decide)
    (by rw [List.length_map, List.length_map, slice_length, slice_length])
    (by rw [List.length_map, slice_length]; omega) hb
  have hby : slice a before wide = slice b before wide :=
    List.map_injective_iff.mpr (fun _ _ => UInt8.toBitVec_inj.mp) hwr
  obtain ⟨i, hi, hne⟩ := h.differ
  grind [slice_inj]

end mvh.crc
