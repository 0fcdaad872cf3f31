-- Buffers for devices (dma.c).
import MvhKernel.PmmRuns
import MvhKernel.Exact

open exact_words

namespace mvh.dma

open pmm

abbrev DMA_PAGE_SIZE : UInt64 := 4096

structure Buffer where
  virtual_address : UInt64
  physical_address : UInt64
  size : UInt64
  allocation_base : UInt64
  allocation_pages : UInt32
  address_bits : UInt8
  coherent : UInt8

def align_up (value alignment : UInt64) : Noted UInt64 := do
  let sum ← add value alignment
  let sum ← sub sum 1
  let mask ← sub alignment 1
  pure (sum &&& ~~~mask)

/-- The end of the buffer is above the highest address of the device. -/
def aboveLimit (physical size : UInt64) (address_bits : UInt8) : Noted Bool :=
  if address_bits < 64 then do
    let finish ← add physical size
    let limit ← note ((1 : UInt64) <<< address_bits.toUInt64) (2 ^ address_bits.toNat)
    pure (finish > limit)
  else pure false

/-- The result with the buffer, which is not there when the pointer is null, and the pages. -/
abbrev Alloc : Type := Int × Option Buffer × Pmm

def takePages (s : Pmm) (size alignment : UInt64) (address_bits : UInt8) (total_pages : UInt32)
    (buffer : Option Buffer) : Noted (Option Alloc) :=
  match pmm_alloc_pages s total_pages with
  | none => pure none
  | some (allocation, s) =>
    if allocation = 0 then pure (some (-1, buffer, s))
    else do
      let physical ← align_up allocation alignment
      let above ← aboveLimit physical size address_bits
      if above then pure ((pmm_free_pages s allocation total_pages).map fun s => (-1, buffer, s))
      else pure (some (0, some { virtual_address := physical, physical_address := physical, size := size
                                 allocation_base := allocation, allocation_pages := total_pages
                                 address_bits := address_bits, coherent := 1 }, s))

def dma_alloc (s : Pmm) (size alignment : UInt64) (address_bits : UInt8) (buffer : Option Buffer) :
    Noted (Option Alloc) :=
  if buffer.isNone ∨ size = 0 ∨ address_bits < 32 ∨ address_bits > 64 then pure (some (-1, buffer, s))
  else do
    let alignment := if alignment < DMA_PAGE_SIZE then DMA_PAGE_SIZE else alignment
    let mask ← sub alignment 1
    let most ← sub 0xFFFFFFFFFFFFFFFF DMA_PAGE_SIZE
    if alignment &&& mask ≠ 0 ∨ size > most then pure (some (-1, buffer, s))
    else do
      let rounded ← add size DMA_PAGE_SIZE
      let rounded ← sub rounded 1
      let pages := rounded / DMA_PAGE_SIZE
      let alignment_pages := alignment / DMA_PAGE_SIZE
      let total_pages ← add pages alignment_pages
      let total_pages ← sub total_pages 1
      if total_pages > 0xFFFFFFFF then pure (some (-1, buffer, s))
      else takePages s size alignment address_bits total_pages.toUInt32 buffer

def dma_free (s : Pmm) (buffer : Option Buffer) : Option (Option Buffer × Pmm) :=
  match buffer with
  | none => some (none, s)
  | some b =>
    if b.allocation_base = 0 ∨ b.allocation_pages = 0 then some (some b, s)
    else (pmm_free_pages s b.allocation_base b.allocation_pages).map fun s =>
      (some { b with virtual_address := 0, physical_address := 0, size := 0
                     allocation_base := 0, allocation_pages := 0 }, s)

/-! ## Scatter lists -/

structure Segment where
  physical_address : UInt64
  length : UInt32

/-- The loop of `dma_build_scatter`, as far as its first turns: the number of segments, or nothing when
there is no room, and the array. -/
def scatterLoop (max_segment_size capacity : UInt32) :
    Nat → UInt64 → UInt64 → UInt32 → (Nat → Segment) → Option (Option UInt32 × (Nat → Segment))
  | 0, _, _, _, _ => none
  | turns + 1, cursor, size, used, segments =>
    if size = 0 then some (some used, segments)
    else
      let page_left := DMA_PAGE_SIZE - (cursor &&& (DMA_PAGE_SIZE - 1))
      let length := if size < page_left then size else page_left
      let length := if length > max_segment_size.toUInt64 then max_segment_size.toUInt64 else length
      if used ≥ capacity then some (none, segments)
      else
        let segments := Function.update segments used.toNat ⟨cursor, length.toUInt32⟩
        scatterLoop max_segment_size capacity turns (cursor + length) (size - length) (used + 1) segments

/-- The result with the array of segments and the count, which are not there when the pointer is null. -/
def dma_build_scatter (turns : Nat) (address size : UInt64) (max_segment_size : UInt32)
    (segments : Option (Nat → Segment)) (capacity : UInt32) (count : Option UInt32) :
    Option (Int × Option (Nat → Segment) × Option UInt32) :=
  match segments, count with
  | some array, some _ =>
    if address = 0 ∨ size = 0 ∨ max_segment_size = 0 ∨ size > 0xFFFFFFFFFFFFFFFF - address then
      some (-1, segments, count)
    else (scatterLoop max_segment_size capacity turns address size 0 array).map fun ended =>
      match ended with
      | (none, array) => (-1, some array, count)
      | (some used, array) => (0, some array, some used)
  | _, _ => some (-1, segments, count)

end mvh.dma
