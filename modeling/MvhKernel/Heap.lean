-- The kernel heap of `heap.c`.
import MvhKernel.FlatMemory

open flat_memory

namespace mvh.heap

def HEAP_PAGES : Nat := 256
def HEAP_GUARD_PAGES : Nat := 2
def HEAP_MAGIC : UInt32 := 0x4D564848
def HEAP_CANARY : UInt64 := 0xC0DEFACEBADC0FFE
def HEAP_POISON : UInt8 := 0xDD

abbrev REGION : Nat := 256 * 4096

structure Heap where
  memory : Mem
  heap_first : Nat
  heap_used : UInt64
  heap_allocations : UInt64
  heap_failures : UInt64
  heap_invalid_frees : UInt64

/-! ## The fields of a block

A `heap_block_t` has 40 bytes. -/

section
variable (m : Mem) (block : Nat)

def magic : UInt32 := load32 m block
def isFree : UInt8 := m (block + 4)
def size : UInt64 := load64 m (block + 8)
def requested : UInt64 := load64 m (block + 16)
def next : Nat := (load64 m (block + 24)).toNat
def previous : Nat := (load64 m (block + 32)).toNat

def setMagic (v : UInt32) : Mem := store32 m block v
def setFree (v : UInt8) : Mem := setByte m (block + 4) v
def setSize (v : UInt64) : Mem := store64 m (block + 8) v
def setRequested (v : UInt64) : Mem := store64 m (block + 16) v
def setNext (v : Nat) : Mem := store64 m (block + 24) (UInt64.ofNat v)
def setPrevious (v : Nat) : Mem := store64 m (block + 32) (UInt64.ofNat v)

def block_canary : Nat := block + 40 + (size m block).toNat - 8

def canary : UInt64 := HEAP_CANARY ^^^ UInt64.ofNat block

end

def align16 (value : UInt64) : UInt64 := (value + 15) &&& 0xFFFFFFF0

/-! ## Initialisation -/

/-- What `pmm_alloc_pages` returns for the heap: the address of that many pages. -/
structure Pages where
  address : Nat
  not_null : address ≠ 0
  fits : address + (HEAP_PAGES + HEAP_GUARD_PAGES) * 4096 ≤ 2 ^ 64

/-- `unmap` and `map` have the results of `vmm_unmap_page` and `vmm_map_page` by address. -/
def heap_init (h : Heap) (pages : Option Pages) (unmap map : Nat → Int) : Heap × Int :=
  match pages with
  | none => (h, -1)
  | some pages =>
    let heap_first := pages.address + 4096
    if unmap pages.address ≠ 0 ∨ unmap (heap_first + REGION) ≠ 0 then ({ h with heap_first := 0 }, -1)
    else if (List.range HEAP_PAGES).any fun page => map (heap_first + page * 4096) ≠ 0 then
      ({ h with heap_first := 0 }, -1)
    else
      let m := setMagic h.memory heap_first HEAP_MAGIC
      let m := setFree m heap_first 1
      let m := setSize m heap_first (UInt64.ofNat (REGION - 40))
      let m := setRequested m heap_first 0
      let m := setNext m heap_first 0
      let m := setPrevious m heap_first 0
      ({ memory := m
         heap_first
         heap_used := 0
         heap_allocations := 0
         heap_failures := 0
         heap_invalid_frees := 0 }, 0)

/-! ## Allocation -/

/-- The rest of a free block, behind `size` bytes, becomes a block of its own. -/
def split_block (m : Mem) (block : Nat) (needed : UInt64) : Mem :=
  let split := block + 40 + needed.toNat
  let m := setMagic m split HEAP_MAGIC
  let m := setFree m split 1
  let m := setSize m split (size m block - needed - 40)
  let m := setRequested m split 0
  let m := setNext m split (next m block)
  let m := setPrevious m split block
  let m := if next m split ≠ 0 then setPrevious m (next m split) split else m
  let m := setNext m block split
  setSize m block needed

def take_block (h : Heap) (block : Nat) (asked needed : UInt64) : Heap × Nat :=
  let m := if size h.memory block ≥ needed + 40 + 16 then split_block h.memory block needed else h.memory
  let m := setFree m block 0
  let m := setRequested m block asked
  let m := store64 m (block_canary m block) (canary block)
  ({ h with
      memory := m
      heap_used := h.heap_used + size m block
      heap_allocations := h.heap_allocations + 1 }, block + 40)

def kmalloc_loop (h : Heap) (asked needed : UInt64) : Nat → Nat → Option (Heap × Nat)
  | 0, _ => none
  | fuel + 1, block =>
    if block = 0 then some ({ h with heap_failures := h.heap_failures + 1 }, 0)
    else if magic h.memory block ≠ HEAP_MAGIC then some (h, 0)
    else if isFree h.memory block ≠ 0 ∧ size h.memory block ≥ needed then some (take_block h block asked needed)
    else kmalloc_loop h asked needed fuel (next h.memory block)

def WALK : Nat := 65537

/-- The pointer is 0 when there is no memory. -/
def kmalloc (h : Heap) (asked : UInt64) : Option (Heap × Nat) :=
  if asked = 0 then some (h, 0)
  else if asked > 0xFFFFFFFFFFFFFFFF - 8 - 15 then some ({ h with heap_failures := h.heap_failures + 1 }, 0)
  else
    let needed := align16 (asked + 8)
    if needed = 0 ∨ h.heap_first = 0 then some (h, 0) else kmalloc_loop h asked needed WALK h.heap_first

/-! ## Release -/

def absorb (m : Mem) (block follower : Nat) : Mem :=
  let m := setSize m block (size m block + (40 + size m follower))
  let m := setNext m block (next m follower)
  if next m block ≠ 0 then setPrevious m (next m block) block else m

def mergeable (m : Mem) (block : Nat) : Bool := block ≠ 0 && isFree m block != 0 && magic m block == HEAP_MAGIC

def kfree (h : Heap) (address : Nat) : Option Heap :=
  if address = 0 then some h
  else
    let block := address - 40
    let m := h.memory
    if magic m block ≠ HEAP_MAGIC ∨ isFree m block ≠ 0 then
      some { h with heap_invalid_frees := h.heap_invalid_frees + 1 }
    else if load64 m (block_canary m block) ≠ canary block then none
    else
      let m := setFree m block 1
      let m := fill m (block + 40) (size m block).toNat HEAP_POISON
      let m := setRequested m block 0
      let used := h.heap_used - size m block
      let m := if mergeable m (next m block) then absorb m block (next m block) else m
      let m := if mergeable m (previous m block) then absorb m (previous m block) block else m
      some { h with memory := m, heap_used := used, heap_allocations := h.heap_allocations - 1 }

/-! ## The other calls -/

def kcalloc (h : Heap) (count size : UInt64) : Option (Heap × Nat) :=
  if count = 0 ∨ size = 0 then some (h, 0)
  else if size > 0xFFFFFFFFFFFFFFFF / count then some ({ h with heap_failures := h.heap_failures + 1 }, 0)
  else
    let total := count * size
    match kmalloc h total with
    | none => none
    | some (h, address) =>
      if address = 0 then some (h, 0) else some ({ h with memory := fill h.memory address total.toNat 0 }, address)

def krealloc (h : Heap) (address : Nat) (size : UInt64) : Option (Heap × Nat) :=
  if address = 0 then kmalloc h size
  else if size = 0 then
    match kfree h address with
    | none => none
    | some h => some (h, 0)
  else
    let block := address - 40
    let m := h.memory
    if magic m block ≠ HEAP_MAGIC ∨ isFree m block ≠ 0 then
      some ({ h with heap_invalid_frees := h.heap_invalid_frees + 1 }, 0)
    else if load64 m (block_canary m block) ≠ canary block then none
    else if size ≤ requested m block then some ({ h with memory := setRequested m block size }, address)
    else
      match kmalloc h size with
      | none => none
      | some (h, replacement) =>
        if replacement = 0 then some (h, 0)
        else
          let copy_size := (requested h.memory block).toNat
          match kfree { h with memory := copy h.memory replacement h.memory address copy_size } address with
          | none => none
          | some h => some (h, replacement)

def heap_validate_loop (m : Mem) (heap_start : Nat) : Nat → Nat → Nat → Nat → Option Int
  | 0, _, _, _ => none
  | fuel + 1, block, last, blocks =>
    let heap_end := heap_start + REGION
    if block = 0 then some 0
    else if block < heap_start ∨ block + 40 > heap_end ∨ magic m block ≠ HEAP_MAGIC ∨
        previous m block ≠ last then some (-1)
    else
      let block_end := block + 40 + (size m block).toNat
      if block_end > heap_end ∨ blocks + 1 > 65536 then some (-1)
      else if next m block ≠ 0 ∧ next m block ≠ block_end then some (-1)
      else if isFree m block = 0 ∧ load64 m (block_canary m block) ≠ canary block then some (-1)
      else heap_validate_loop m heap_start fuel (next m block) block (blocks + 1)

def heap_validate (h : Heap) : Option Int := heap_validate_loop h.memory h.heap_first WALK h.heap_first 0 0

end mvh.heap
