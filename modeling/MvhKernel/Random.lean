-- The generator of `random.c`.
import MvhKernel.Words
import Mathlib

namespace mvh.random

def RANDOM_OUTPUT_BYTES : Nat := 32

/-- `random_available` counts the bytes of the buffer that were not given out, so it is at most 32. -/
structure Generator where
  random_state : Fin 16 → UInt32
  random_buffer : Fin 32 → UInt8
  random_available : Fin 33
  entropy_bits : UInt32

/-! ## The block function -/

def rotate_left (value amount : UInt32) : UInt32 := (value <<< amount) ||| (value >>> (32 - amount))

def quarter (a b c d : UInt32) : UInt32 × UInt32 × UInt32 × UInt32 :=
  let a := a + b
  let d := rotate_left (d ^^^ a) 16
  let c := c + d
  let b := rotate_left (b ^^^ c) 12
  let a := a + b
  let d := rotate_left (d ^^^ a) 8
  let c := c + d
  let b := rotate_left (b ^^^ c) 7
  (a, b, c, d)

-- the vector of the self test
example : quarter 0x11111111 0x01020304 0x9B8D6F43 0x01234567 =
    (0xEA2A92F4, 0xCB1CF8CE, 0x4581472E, 0x5881C4BB) := by decide

def quarterAt (working : Fin 16 → UInt32) (a b c d : Fin 16) : Fin 16 → UInt32 :=
  let (va, vb, vc, vd) := quarter (working a) (working b) (working c) (working d)
  Function.update (Function.update (Function.update (Function.update working a va) b vb) c vc) d vd

def double_round (w : Fin 16 → UInt32) : Fin 16 → UInt32 :=
  let w := quarterAt w 0 4 8 12
  let w := quarterAt w 1 5 9 13
  let w := quarterAt w 2 6 10 14
  let w := quarterAt w 3 7 11 15
  let w := quarterAt w 0 5 10 15
  let w := quarterAt w 1 6 11 12
  let w := quarterAt w 2 7 8 13
  quarterAt w 3 4 9 14

def bump (state : Fin 16 → UInt32) : Fin 16 → UInt32 :=
  let state := Function.update state 12 (state 12 + 1)
  if state 12 = 0 then Function.update state 13 (state 13 + 1) else state

/-- The first half of the block goes into the key, the second half into the buffer. -/
def generate_block (g : Generator) : Generator :=
  let working := double_round^[10] g.random_state
  let working := fun i => working i + g.random_state i
  let state := bump g.random_state
  { g with
    random_state := fun i =>
      if 4 ≤ i.val ∧ i.val < 12 then state i ^^^ working (i - 4) else state i
    random_buffer := fun i =>
      let value := working ⟨8 + i.val / 4, by omega⟩
      (value >>> (8 * (i.val % 4)).toUInt32).toUInt8
    random_available := 32 }

/-! ## Entropy -/

def entropy_byte (state : Fin 16 → UInt32) (index : UInt32) (byte : UInt8) : Fin 16 → UInt32 :=
  let slot : Fin 16 := ⟨4 + index.toNat % 8, by omega⟩
  let mixed := rotate_left (byte.toUInt32 + 0x9E3779B9 + index) (index % 31 + 1)
  let state := Function.update state slot (state slot ^^^ mixed)
  let state := Function.update state 14 (state 14 ^^^ (state slot + state 15))
  Function.update state 15 (rotate_left (state 15 ^^^ byte.toUInt32) 7)

def entropy_loop (state : Fin 16 → UInt32) (index : UInt32) : List UInt8 → Fin 16 → UInt32
  | [] => state
  | byte :: data => entropy_loop (entropy_byte state index byte) (index + 1) data

def entropy_add (g : Generator) (data : List UInt8) (estimated_bits : UInt32) : Generator :=
  if data = [] then g
  else { g with
    random_state := entropy_loop g.random_state 0 data
    random_available := 0
    entropy_bits := if estimated_bits ≥ 256 - g.entropy_bits then 256 else g.entropy_bits + estimated_bits }

/-! ## Requests -/

def take_byte (g : Generator) (h : g.random_available.val ≠ 0) : UInt8 × Generator :=
  (g.random_buffer ⟨RANDOM_OUTPUT_BYTES - g.random_available.val, by unfold RANDOM_OUTPUT_BYTES; omega⟩,
    { g with random_available := ⟨g.random_available.val - 1, by omega⟩ })

def random_byte (g : Generator) : UInt8 × Generator :=
  if h : g.random_available.val = 0 then take_byte (generate_block g) (Nat.succ_ne_zero 31)
  else take_byte g h

def random_loop : Nat → Generator → List UInt8 × Generator
  | 0, g => ([], g)
  | size + 1, g =>
    let (byte, g) := random_byte g
    let (bytes, g) := random_loop size g
    (byte :: bytes, g)

/-- The bytes that are written to the output, and the generator after it. -/
def random_bytes (g : Generator) (size : UInt32) : List UInt8 × Generator := random_loop size.toNat g

def requests : List UInt32 → Generator → List UInt8 × Generator
  | [], g => ([], g)
  | size :: sizes, g =>
    let (first, g) := random_bytes g size
    let (rest, g) := requests sizes g
    (first ++ rest, g)

def total (sizes : List UInt32) : Nat := (sizes.map UInt32.toNat).sum

/-! ## The stream -/

def Generator.rest (g : Generator) : List UInt8 :=
  (List.ofFn g.random_buffer).drop (32 - g.random_available.val)

def blocks : Nat → Generator → List UInt8
  | 0, _ => []
  | count + 1, g => (generate_block g).rest ++ blocks count (generate_block g)

section
variable {g : Generator}

theorem rest_length : g.rest.length = g.random_available.val := by
  have := g.random_available.isLt
  unfold Generator.rest
  grind

theorem rest_take_byte (h : g.random_available.val ≠ 0) :
    g.rest = (take_byte g h).1 :: (take_byte g h).2.rest := by
  have hlt := g.random_available.isLt
  have hp : 32 - g.random_available.val < (List.ofFn g.random_buffer).length := by
    rw [List.length_ofFn]
    omega
  have hn : 32 - (g.random_available.val - 1) = 32 - g.random_available.val + 1 := by omega
  unfold Generator.rest take_byte
  rw [List.drop_eq_getElem_cons hp, List.getElem_ofFn]
  simp only [hn]
  rfl

theorem blocks_take_byte (h : g.random_available.val ≠ 0) (c : Nat) :
    blocks c (take_byte g h).2 = blocks c g := by
  cases c with
  | zero => rfl
  | succ c => rfl

theorem random_loop_add (a b : Nat) :
    random_loop (a + b) g =
      ((random_loop a g).1 ++ (random_loop b (random_loop a g).2).1,
        (random_loop b (random_loop a g).2).2) := by
  induction a generalizing g with
  | zero => simp [random_loop]
  | succ a ih =>
    rw [Nat.succ_add]
    simp only [random_loop, ih, List.cons_append]

theorem requests_eq (sizes : List UInt32) : requests sizes g = random_loop (total sizes) g := by
  induction sizes generalizing g with
  | nil => rfl
  | cons s sizes ih =>
    have ht : total (s :: sizes) = s.toNat + total sizes := rfl
    rw [ht, random_loop_add]
    simp only [requests, random_bytes, ih]

theorem random_loop_stream (size : Nat) (c : Nat) (h : size ≤ g.rest.length + 32 * c) :
    (random_loop size g).1 = (g.rest ++ blocks c g).take size := by
  induction size generalizing g c with
  | zero => rfl
  | succ size ih =>
    simp only [random_loop]
    unfold random_byte
    split
    next he =>
      -- the buffer is empty, so a block is made and its first byte is given out
      have hr : g.rest = [] := List.length_eq_zero_iff.mp (rest_length.trans he)
      obtain ⟨c, rfl⟩ : ∃ k, c = k + 1 := ⟨c - 1, by rw [hr, List.length_nil] at h; omega⟩
      have hf : (generate_block g).random_available.val ≠ 0 := Nat.succ_ne_zero 31
      have hb := rest_take_byte hf
      have hl : (generate_block g).rest.length = 32 := rest_length
      rw [hr, List.nil_append, blocks, hb, List.cons_append, List.take_succ_cons,
        ← blocks_take_byte hf]
      grind
    next hs =>
      have hr := rest_take_byte hs
      rw [hr, List.length_cons] at h
      grind [List.cons_append, List.take_succ_cons, blocks_take_byte]

end

/-- Requests with the same total give the same bytes and leave the same generator: the rest of the
buffer, and then the bytes of one block after the other. -/
theorem requests_do_not_shape_the_stream (g : Generator) (sizes others : List UInt32)
    (h : total sizes = total others) :
    requests sizes g = requests others g ∧
      ∀ count, total sizes ≤ g.rest.length + 32 * count →
        (requests sizes g).1 = (g.rest ++ blocks count g).take (total sizes) := by
  refine ⟨?_, fun count hcount => ?_⟩
  · rw [requests_eq, requests_eq, h]
  · rw [requests_eq]
    exact random_loop_stream (total sizes) count hcount

/-- 40 bytes at once, or in three requests across the end of a block. -/
theorem forty_bytes_in_three_requests :
    requests [30, 3, 7] ⟨fun _ => 0, fun _ => 0, 0, 0⟩ = requests [40] ⟨fun _ => 0, fun _ => 0, 0, 0⟩ :=
  (requests_do_not_shape_the_stream ⟨fun _ => 0, fun _ => 0, 0, 0⟩ [30, 3, 7] [40] (by decide)).1

/-! ## The start -/

def slot (index : UInt32) : Fin 16 := ⟨4 + index.toNat % 8, by omega⟩

def bytesOf (value : UInt64) : List UInt8 := (List.range 8).map fun i => (value >>> (8 * i).toUInt64).toUInt8

/-- What `random_init` reads from the machine. -/
structure Sources where
  tsc : UInt64
  ticks : UInt64
  /-- The address of the local variable. -/
  address : UInt64
  /-- The results of the four calls of `cpu_random64`, each with the value after it. -/
  hardware : Fin 4 → UInt8 × UInt64
  lastTsc : UInt64
  frequency : UInt32

/-- The loop over the numbers of the hardware, with `previous_hardware` once there is one. -/
def hardware_loop : List (UInt8 × UInt64) → Option UInt64 → Generator → Generator
  | [], _, g => g
  | (status, value) :: rest, previous, g =>
    if status ≠ 0 ∧ previous ≠ some value then hardware_loop rest (some value) (entropy_add g (bytesOf value) 64)
    else hardware_loop rest previous g

def constants : Fin 16 → UInt32
  | 0 => 0x61707865
  | 1 => 0x3320646E
  | 2 => 0x79622D32
  | 3 => 0x6B206574
  | _ => 0

def random_init (before : Generator) (sources : Sources) : Generator :=
  let g := { before with random_state := constants, random_available := 0, entropy_bits := 0 }
  let g := entropy_add g (bytesOf (sources.tsc ^^^ sources.ticks ^^^ sources.address)) 8
  let g := hardware_loop (List.ofFn sources.hardware) none g
  entropy_add g (bytesOf (sources.lastTsc ^^^ (sources.frequency.toUInt64 <<< 32))) 4

end mvh.random
