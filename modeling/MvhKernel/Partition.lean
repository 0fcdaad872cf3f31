-- The partition tables of `block.c`: `partition_probe` reads the first sector of a disk,
-- and behind a protective MBR the GPT header and its entries.
import MvhKernel.Block
import MvhKernel.Crc32

open flat_memory mvh.crc

namespace mvh.block

inductive PartitionTable where
  | none
  | mbr
  | gpt
  deriving DecidableEq, Repr

structure PartitionInfo where
  type : PartitionTable := .none
  partition_count : UInt32 := 0
  protective_mbr : UInt8 := 0
  gpt_header_valid : UInt8 := 0
  gpt_entries_valid : UInt8 := 0
  first_usable_lba : UInt64 := 0
  last_usable_lba : UInt64 := 0
  deriving DecidableEq, Repr

/-! ## The entries -/

def typeBits (sector : Mem) (offset : Nat) : UInt8 :=
  (List.range 16).foldl (fun populated_entry byte => populated_entry ||| sector (offset + byte)) 0

/-- The loop over the entries of a chunk. -/
def countEntries (sector : Mem) (entry_size chunk : UInt32) : Nat → UInt32 → UInt32 → UInt32
  | 0, _, populated => populated
  | turns + 1, offset, populated =>
    if offset + entry_size ≤ chunk then
      countEntries sector entry_size chunk turns (offset + entry_size)
        (if typeBits sector offset.toNat ≠ 0 then populated + 1 else populated)
    else populated

/-- The loop over the sectors of the entries, with the sectors that are left. -/
def readEntries (device_id : UInt32) (entry_lba : UInt64) (entry_size : UInt32) :
    Nat → UInt64 → UInt64 → UInt32 → UInt32 → Io (Option (UInt32 × UInt32))
  | 0, _, _, entries_crc, populated => pure (some (entries_crc, populated))
  | left + 1, sector_index, remaining, entries_crc, populated => do
    let chunk : UInt32 := if remaining > 512 then 512 else remaining.toUInt32
    let sector ← block_read device_id (entry_lba + sector_index).toNat 1
    match sector with
    | none => pure none
    | some sector =>
      readEntries device_id entry_lba entry_size left (sector_index + 1)
        (remaining - chunk.toUInt64) (crc32_update entries_crc (some sector) chunk.toNat)
        (countEntries sector entry_size chunk 512 0 populated)

/-! ## The header -/

/-- `gpt_probe` once the header is valid. -/
def probeEntries (device_id : UInt32) (device : BlockDevice) (header : Mem) (info : PartitionInfo) :
    Io (Int × PartitionInfo) :=
  let entry_lba := load64 header 72
  let entry_bytes := (load32 header 80).toUInt64 * (load32 header 84).toUInt64
  let entry_sectors := (entry_bytes + 511) / 512
  if entry_lba ≤ 1 ∨ entry_lba ≥ info.first_usable_lba ∨ entry_lba ≥ device.sector_count ∨
      entry_sectors > device.sector_count - entry_lba ∨
      entry_sectors > info.first_usable_lba - entry_lba then pure (-2, info)
  else do
    let entries ← readEntries device_id entry_lba (load32 header 84) entry_sectors.toNat 0 entry_bytes 0 0
    match entries with
    | none => pure (-2, info)
    | some (entries_crc, populated) =>
      if entries_crc ≠ load32 header 88 then pure (-2, info)
      else pure (0, { info with gpt_entries_valid := 1, type := .gpt, partition_count := populated })

def gpt_probe (device_id : UInt32) (device : BlockDevice) (header : Mem) (info : PartitionInfo) :
    Io (Int × PartitionInfo) :=
  let header_size := load32 header 12
  let expected_header_crc := load32 header 16
  let entry_count := load32 header 80
  let entry_size := load32 header 84
  if load32 header 8 ≠ 0x00010000 ∨ header_size < 92 ∨ header_size > 512 ∨ load32 header 20 ≠ 0 ∨
      load64 header 24 ≠ 1 ∨ load64 header 32 ≥ device.sector_count ∨ entry_count = 0 ∨
      entry_count > 128 ∨ entry_size < 128 ∨ entry_size > 512 ∨ entry_size &&& 127 ≠ 0 ∨
      512 % entry_size ≠ 0 then pure (-2, info)
  else
    let info := { info with
      first_usable_lba := load64 header 40, last_usable_lba := load64 header 48 }
    if info.first_usable_lba > info.last_usable_lba ∨ info.last_usable_lba ≥ device.sector_count ∨
        load64 header 32 ≤ info.last_usable_lba then pure (-2, info)
    else
      if crc32 (some (store32 header 16 0)) header_size.toNat ≠ expected_header_crc then pure (-2, info)
      else probeEntries device_id device header { info with gpt_header_valid := 1 }

/-! ## The first sector -/

/-- What the loop over the four entries of the MBR finds: a protective entry, and the number of
entries in use. -/
def mbrEntries (sector : Mem) : UInt8 × UInt32 :=
  (List.range 4).foldl (fun (protective, count) index =>
    let entry := 446 + index * 16
    (if sector (entry + 4) = 0xEE then 1 else protective,
      if sector (entry + 4) ≠ 0 ∧ load32 sector (entry + 12) ≠ 0 then count + 1 else count)) (0, 0)

def getDevice (device_id : UInt32) : Io (Option BlockDevice) := fun m => (some (block_get m.table device_id), m)

/-- The value that the function returns, and what is in `info` then. -/
def partition_probe (device_id : UInt32) (info : Option PartitionInfo) : Io (Int × Option PartitionInfo) :=
  match info with
  | none => pure (-1, none)
  | some before => do
    let device ← getDevice device_id
    match device with
    | none => pure (-1, some before)
    | some device =>
      if device.sector_size ≠ 512 then pure (-1, some before)
      else do
        let sector ← block_read device_id 0 1
        match sector with
        | none => pure (-1, some before)
        | some sector =>
          let info : PartitionInfo := {}
          if sector 510 ≠ 0x55 ∨ sector 511 ≠ 0xAA then pure (0, some info)
          else
            let (protective, count) := mbrEntries sector
            if protective ≠ 0 then do
              let info := { info with protective_mbr := 1 }
              let sector ← block_read device_id 1 1
              match sector with
              | none => pure (-2, some info)
              | some sector =>
                if load64 sector 0 ≠ 0x5452415020494645 then pure (-2, some info)
                else do
                  let (result, info) ← gpt_probe device_id device sector info
                  pure (result, some info)
            else pure (0, some { info with type := .mbr, partition_count := count, protective_mbr := protective })

end mvh.block
