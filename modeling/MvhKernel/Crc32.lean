-- The CRC-32 of `crc32.c`, and that a checksum taken chunk by chunk is the checksum of
-- the whole.
import MvhKernel.FlatMemory

open flat_memory

namespace mvh.crc

/-- One turn of the inner loop: the low bit chooses if the polynomial is added. -/
def crc32_bit (value : UInt32) : UInt32 :=
  let mask := 0 - (value &&& 1)
  (value >>> 1) ^^^ (0xEDB88320 &&& mask)

/-- One turn of the outer loop: a byte comes in, then its eight bits go out. -/
def crc32_byte (value : UInt32) (byte : UInt8) : UInt32 :=
  Nat.repeat crc32_bit 8 (value ^^^ byte.toUInt32)

def crc32_loop (bytes : Mem) (size : Nat) (value : UInt32) : UInt32 :=
  (List.range size).foldl (fun value index => crc32_byte value (bytes index)) value

def crc32_update (previous : UInt32) (data : Option Mem) (size : Nat) : UInt32 :=
  match data with
  | none => if size ≠ 0 then previous else ~~~ ~~~ previous
  | some bytes => ~~~ crc32_loop bytes size (~~~ previous)

def crc32 (data : Option Mem) (size : Nat) : UInt32 := crc32_update 0 data size

/-! ## The laws -/

theorem crc32_loop_congr {b c : Mem} {n : Nat} (h : ∀ i < n, b i = c i) (v : UInt32) :
    crc32_loop b n v = crc32_loop c n v := by
  unfold crc32_loop
  grind [List.foldl_ext]

theorem crc32_loop_add (b : Mem) (n k : Nat) (v : UInt32) :
    crc32_loop b (n + k) v = crc32_loop (shift b n) k (crc32_loop b n v) := by
  unfold crc32_loop
  rw [List.range_add, List.foldl_append, List.foldl_map]
  rfl

theorem crc32_update_congr {b c : Mem} {n : Nat} (h : ∀ i < n, b i = c i) (p : UInt32) :
    crc32_update p (some b) n = crc32_update p (some c) n := by
  unfold crc32_update
  simp only
  rw [crc32_loop_congr h]

@[simp] theorem crc32_update_zero (p : UInt32) (d : Option Mem) : crc32_update p d 0 = p := by
  cases d <;> simp [crc32_update, crc32_loop]

theorem crc32_update_add (b : Mem) (n k : Nat) (p : UInt32) :
    crc32_update p (some b) (n + k) = crc32_update (crc32_update p (some b) n) (some (shift b n)) k := by
  unfold crc32_update
  simp only [crc32_loop_add, UInt32.not_not]

theorem crc32_congr {b c : Mem} {n : Nat} (h : ∀ i < n, b i = c i) :
    crc32 (some b) n = crc32 (some c) n := crc32_update_congr h 0

@[simp] theorem crc32_zero (d : Option Mem) : crc32 d 0 = 0 := crc32_update_zero 0 d

theorem crc32_add (b : Mem) (n k : Nat) :
    crc32 (some b) (n + k) = crc32_update (crc32 (some b) n) (some (shift b n)) k :=
  crc32_update_add b n k 0

end mvh.crc
