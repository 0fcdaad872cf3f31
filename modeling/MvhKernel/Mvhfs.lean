-- The filesystem of `mvhfs.c`, function by function.
import MvhKernel.Crc32
import MvhKernel.Block

open flat_memory mvh.block mvh.crc

namespace mvh.mvhfs

def MVHFS_VERSION : UInt32 := 1
def MVHFS_SECTOR_SIZE : Nat := 512
def MVHFS_DIRECTORY_SECTORS : Nat := 4
def MVHFS_DIRECTORY0_LBA : Nat := 2
def MVHFS_DIRECTORY1_LBA : Nat := 6
def MVHFS_DATA_LBA : Nat := 10
def MVHFS_SECTORS_PER_COPY : Nat := 8
def MVHFS_ENTRY_SIZE : Nat := 64
def MVHFS_CLEAN_MARKER : UInt32 := 0xC1EA4D56
def MVHFS_MAX_FILES : Nat := 32
def MVHFS_NAME_MAX : Nat := 32
def MVHFS_FILE_MAX : Nat := 4096
def MVHFS_DIRECTORY_BYTES : Nat := 2048
def MVHFS_MIN_SECTORS : UInt64 := 522

def mvhfs_magic : Mem := fun i => [0x4D, 0x56, 0x48, 0x46, 0x53, 0x31, 0x0D, 0x0A].getD i 0

def cleared : Mem := fun _ => 0

/-- The handle `mvhfs_t`. -/
structure Mvhfs where
  device_id : UInt32
  superblock_slot : UInt32
  directory_slot : UInt32
  generation : UInt64
  mounted : UInt8
  directory : Buffer 2048

def Mvhfs.edit (fs : Mvhfs) (f : Mem → Mem) : Mvhfs :=
  { fs with directory := Buffer.ofMem 2048 (f fs.directory.bytes) }

/-! ## Places -/

def device_info (table : BlockTable) (device_id : UInt32) : Option BlockDevice :=
  (table.devices.take BLOCK_DEVICE_MAX).find? fun device => device.id == device_id

def directory_lba (slot : UInt32) : Nat :=
  if slot = 0 then MVHFS_DIRECTORY0_LBA else MVHFS_DIRECTORY1_LBA

def data_lba (file : Nat) (slot : UInt32) : Nat :=
  MVHFS_DATA_LBA + file * MVHFS_SECTORS_PER_COPY * 2 + slot.toNat * MVHFS_SECTORS_PER_COPY

def entry_at (index : Nat) : Nat := index * MVHFS_ENTRY_SIZE

/-! ## Names -/

/-- The loop of `valid_name`. -/
def valid_name_loop (name : Mem) : Nat → Nat → Bool
  | 0, _ => false
  | fuel + 1, length =>
    if name length = 0 then true
    else if length + 1 ≥ MVHFS_NAME_MAX ∨ name length = 0x2F ∨ name length = 0x5C then false
    else valid_name_loop name fuel (length + 1)

def valid_name : Option Mem → Bool
  | none => false
  | some name => if name 0 = 0 then false else valid_name_loop name MVHFS_NAME_MAX 0

def entry_name_equal_loop (entry name : Mem) : Nat → Nat → Bool
  | 0, _ => false
  | fuel + 1, index =>
    if entry index ≠ name index then false
    else if name index = 0 then true
    else entry_name_equal_loop entry name fuel (index + 1)

def entry_name_equal (entry name : Mem) : Bool :=
  if load32 entry 32 = 0 then false else entry_name_equal_loop entry name MVHFS_NAME_MAX 0

def find_entry (fs : Mvhfs) (name : Mem) : Option Nat :=
  (List.range MVHFS_MAX_FILES).find? fun index =>
    entry_name_equal (shift fs.directory.bytes (entry_at index)) name

def find_free (fs : Mvhfs) : Option Nat :=
  (List.range MVHFS_MAX_FILES).find? fun index =>
    load32 fs.directory.bytes (entry_at index + 32) == 0

/-! ## Superblocks -/

def build_superblock (total_sectors generation : UInt64) (directory_slot directory_crc : UInt32) :
    Buffer 512 :=
  let sector := copy cleared 0 mvhfs_magic 0 8
  let sector := store32 sector 8 MVHFS_VERSION
  let sector := store32 sector 12 512
  let sector := store64 sector 16 total_sectors
  let sector := store64 sector 24 generation
  let sector := store32 sector 32 directory_slot
  let sector := store32 sector 36 32
  let sector := store32 sector 40 directory_crc
  let sector := store32 sector 44 MVHFS_CLEAN_MARKER
  let sector := store32 sector 52 10
  let sector := store32 sector 56 8
  Buffer.ofMem 512 (store32 sector 48 (crc32 (some sector) MVHFS_SECTOR_SIZE))

/-- The result also has the sector: the check of the checksum clears the field that holds it. -/
def validate_superblock (sector : Buffer 512) (device : BlockDevice) : Int × Buffer 512 :=
  let b := sector.bytes
  if slice b 0 8 ≠ slice mvhfs_magic 0 8 ∨ load32 b 8 ≠ MVHFS_VERSION ∨ load32 b 12 ≠ 512 ∨
      load64 b 16 > device.sector_count ∨ load64 b 16 < MVHFS_MIN_SECTORS ∨
      load32 b 32 > 1 ∨ load32 b 36 ≠ 32 ∨ load32 b 44 ≠ MVHFS_CLEAN_MARKER ∨
      load32 b 52 ≠ 10 ∨ load32 b 56 ≠ 8 then (-1, sector)
  else
    let expected_crc := load32 b 48
    let sector := Buffer.ofMem 512 (store32 b 48 0)
    (if crc32 (some sector.bytes) MVHFS_SECTOR_SIZE = expected_crc then 0 else -1, sector)

/-! ## Mount -/

def read_directory_loop (device_id slot : UInt32) :
    List Nat → Buffer 2048 → Io (Int × Buffer 2048)
  | [], directory => pure (0, directory)
  | sector :: rest, directory => do
    match ← block_read device_id (directory_lba slot + sector) 1 with
    | none => pure (-1, directory)
    | some bytes =>
      read_directory_loop device_id slot rest
        (Buffer.ofMem 2048 (copy directory.bytes (sector * MVHFS_SECTOR_SIZE) bytes 0
          MVHFS_SECTOR_SIZE))

def read_directory (device_id slot : UInt32) (directory : Buffer 2048) (expected_crc : UInt32) :
    Io (Int × Buffer 2048) := do
  let (status, directory) ←
    read_directory_loop device_id slot (List.range MVHFS_DIRECTORY_SECTORS) directory
  if status ≠ 0 then pure (-1, directory)
  else if crc32 (some directory.bytes) MVHFS_DIRECTORY_BYTES = expected_crc then
    pure (0, directory)
  else pure (-1, directory)

def mount_from_superblock (fs : Mvhfs) (device_id superblock_slot : UInt32)
    (superblock : Buffer 512) : Io (Int × Mvhfs) := do
  let slot := load32 superblock.bytes 32
  let (status, directory) ←
    read_directory device_id slot fs.directory (load32 superblock.bytes 40)
  let fs := { fs with directory }
  if status ≠ 0 then pure (-1, fs)
  else pure (0, { fs with
    device_id, superblock_slot, directory_slot := slot,
    generation := load64 superblock.bytes 24, mounted := 1 })

/-- The end of `mvhfs_mount`: the valid superblocks are tried, the newer one first. -/
def mount_newest (fs : Mvhfs) (device_id : UInt32) :
    Option (Buffer 512) → Option (Buffer 512) → Io (Int × Mvhfs)
  | none, none => pure (-1, fs)
  | some first, none => mount_from_superblock fs device_id 0 first
  | none, some second => mount_from_superblock fs device_id 1 second
  | some first, some second =>
    if load64 first.bytes 24 ≥ load64 second.bytes 24 then do
      let (status, fs) ← mount_from_superblock fs device_id 0 first
      if status = 0 then pure (0, fs) else mount_from_superblock fs device_id 1 second
    else do
      let (status, fs) ← mount_from_superblock fs device_id 1 second
      if status = 0 then pure (0, fs) else mount_from_superblock fs device_id 0 first

/-- A superblock slot read and checked: the sector, if it is valid. -/
def read_superblock (device_id : UInt32) (device : BlockDevice) (slot : Nat) :
    Io (Option (Buffer 512)) := do
  match ← block_read device_id slot 1 with
  | none => pure none
  | some bytes =>
    let (status, sector) := validate_superblock (Buffer.ofMem 512 bytes) device
    pure (if status = 0 then some sector else none)

def get_device (device_id : UInt32) : Io (Option BlockDevice) :=
  fun m => (some (device_info m.table device_id), m)

def mvhfs_mount (fs : Mvhfs) (device_id : UInt32) : Io (Int × Mvhfs) := do
  match ← get_device device_id with
  | none => pure (-1, fs)
  | some device =>
    if device.sector_size ≠ 512 ∨ device.sector_count < MVHFS_MIN_SECTORS then pure (-1, fs)
    else do
      let fs := { fs with mounted := 0 }
      let first ← read_superblock device_id device 0
      let second ← read_superblock device_id device 1
      mount_newest fs device_id first second

/-! ## Commit -/

def commit_directory_loop (fs : Mvhfs) (slot : UInt32) : List Nat → Io Int
  | [] => pure 0
  | sector :: rest => do
    let status ← block_write fs.device_id (directory_lba slot + sector) 1
      (shift fs.directory.bytes (sector * MVHFS_SECTOR_SIZE))
    if status ≠ 0 then pure (-1) else commit_directory_loop fs slot rest

def commit_directory (fs : Mvhfs) : Io (Int × Mvhfs) := do
  let new_directory_slot := fs.directory_slot ^^^ 1
  let new_superblock_slot := fs.superblock_slot ^^^ 1
  match ← get_device fs.device_id with
  | none => pure (-1, fs)
  | some device =>
    let status ← commit_directory_loop fs new_directory_slot (List.range MVHFS_DIRECTORY_SECTORS)
    if status ≠ 0 then pure (-1, fs)
    else do
      let superblock := build_superblock device.sector_count (fs.generation + 1) new_directory_slot
        (crc32 (some fs.directory.bytes) MVHFS_DIRECTORY_BYTES)
      let status ← block_write fs.device_id new_superblock_slot.toNat 1 superblock.bytes
      if status ≠ 0 then pure (-1, fs)
      else pure (0, { fs with
        directory_slot := new_directory_slot
        superblock_slot := new_superblock_slot
        generation := fs.generation + 1 })

/-! ## Format -/

def mvhfs_format_loop (device_id : UInt32) : List Nat → Io Int
  | [] => pure 0
  | index :: rest => do
    let status ← block_write device_id (MVHFS_DIRECTORY0_LBA + index) 1 cleared
    if status ≠ 0 then pure (-1) else mvhfs_format_loop device_id rest

def mvhfs_format (device_id : UInt32) : Io Int := do
  match ← get_device device_id with
  | none => pure (-1)
  | some device =>
    if device.sector_size ≠ 512 ∨ device.sector_count < MVHFS_MIN_SECTORS ∨
        device.writable = 0 then pure (-1)
    else do
      let zero_crc := (List.range MVHFS_DIRECTORY_SECTORS).foldl
        (fun zero_crc _ => crc32_update zero_crc (some cleared) MVHFS_SECTOR_SIZE) 0
      let status ← mvhfs_format_loop device_id (List.range (MVHFS_DIRECTORY_SECTORS * 2))
      if status ≠ 0 then pure (-1)
      else do
        let status ← block_write device_id 1 1
          (build_superblock device.sector_count 0 1 zero_crc).bytes
        if status ≠ 0 then pure (-1)
        else block_write device_id 0 1 (build_superblock device.sector_count 1 0 zero_crc).bytes

/-! ## Files -/

/-- The loop that copies a name into a cleared entry. -/
def copy_name_loop (name : Mem) (entry : Nat) : Nat → Nat → Mem → Mem
  | 0, _, directory => directory
  | fuel + 1, index, directory =>
    if name index = 0 then directory
    else copy_name_loop name entry fuel (index + 1) (setByte directory (entry + index) (name index))

def mvhfs_create (fs : Mvhfs) (name : Option Mem) : Io (Int × Mvhfs) :=
  match name with
  | none => pure (-1, fs)
  | some text =>
    if fs.mounted = 0 ∨ valid_name (some text) = false ∨ (find_entry fs text).isSome then
      pure (-1, fs)
    else
      match find_free fs with
      | none => pure (-1, fs)
      | some slot => do
        let entry := entry_at slot
        let backup := shift fs.directory.bytes entry
        let fs := fs.edit fun directory =>
          let directory := fill directory entry MVHFS_ENTRY_SIZE 0
          let directory := copy_name_loop text entry MVHFS_NAME_MAX 0 directory
          let directory := store32 directory (entry + 32) 1
          let directory := store32 directory (entry + 36) 0
          let directory := store32 directory (entry + 40) 0
          store32 directory (entry + 44) 0
        let (status, fs) ← commit_directory fs
        if status ≠ 0 then
          pure (-1, fs.edit fun directory => copy directory entry backup 0 MVHFS_ENTRY_SIZE)
        else pure (0, fs)

def mvhfs_write_loop (device_id : UInt32) (lba : Nat) (input : Mem) (size : Nat) :
    Nat → Nat → Nat → Io Int
  | 0, _, _ => pure 0
  | left + 1, sector_index, offset => do
    let chunk := if size - offset > MVHFS_SECTOR_SIZE then MVHFS_SECTOR_SIZE else size - offset
    let sector := copy cleared 0 input offset chunk
    let status ← block_write device_id (lba + sector_index) 1 sector
    if status ≠ 0 then pure (-1)
    else mvhfs_write_loop device_id lba input size left (sector_index + 1) (offset + chunk)

def mvhfs_write (fs : Mvhfs) (name : Option Mem) (data : Option Mem) (size : UInt32) :
    Io (Int × Mvhfs) :=
  match name with
  | none => pure (-1, fs)
  | some text =>
    if fs.mounted = 0 ∨ valid_name (some text) = false ∨ size.toNat > MVHFS_FILE_MAX ∨
        (data.isNone ∧ size ≠ 0) then pure (-1, fs)
    else
      match find_entry fs text with
      | none => pure (-1, fs)
      | some file => do
        let entry := entry_at file
        let backup := shift fs.directory.bytes entry
        let active_slot := load32 fs.directory.bytes (entry + 44)
        let new_slot := active_slot ^^^ 1
        let status ← mvhfs_write_loop fs.device_id (data_lba file new_slot) (data.getD cleared)
          size.toNat MVHFS_SECTORS_PER_COPY 0 0
        if status ≠ 0 then pure (-1, fs)
        else do
          let fs := fs.edit fun directory =>
            let directory := store32 directory (entry + 36) size
            let directory := store32 directory (entry + 40) (crc32 data size.toNat)
            store32 directory (entry + 44) new_slot
          let (status, fs) ← commit_directory fs
          if status ≠ 0 then
            pure (-1, fs.edit fun directory => copy directory entry backup 0 MVHFS_ENTRY_SIZE)
          else pure (0, fs)

/-- What `mvhfs_read` gives: its result, `*size` when it is stored, and the
bytes that it put into the buffer. -/
structure ReadResult where
  status : Int
  size : Option UInt32
  output : List UInt8
  deriving DecidableEq, Repr

def mvhfs_read_loop (device_id : UInt32) (lba file_size : Nat) (expected : UInt32) :
    Nat → Nat → Nat → UInt32 → List UInt8 → Io (Int × List UInt8)
  | 0, _, _, checksum, output => pure (if checksum = expected then 0 else -3, output)
  | fuel + 1, sector_index, offset, checksum, output =>
    if offset < file_size then do
      let chunk :=
        if file_size - offset > MVHFS_SECTOR_SIZE then MVHFS_SECTOR_SIZE else file_size - offset
      match ← block_read device_id (lba + sector_index) 1 with
      | none => pure (-1, output)
      | some sector =>
        mvhfs_read_loop device_id lba file_size expected fuel (sector_index + 1) (offset + chunk)
          (crc32_update checksum (some sector) chunk) (output ++ slice sector 0 chunk)
    else pure (if checksum = expected then 0 else -3, output)

/-- `buffer` says if the buffer pointer is not null, `size` the same for the size pointer. -/
def mvhfs_read (fs : Mvhfs) (name : Option Mem) (buffer : Bool) (capacity : UInt32) (size : Bool) :
    Io ReadResult :=
  match name with
  | none => pure ⟨-1, none, []⟩
  | some text =>
    if fs.mounted = 0 ∨ valid_name (some text) = false ∨ size = false then pure ⟨-1, none, []⟩
    else
      match find_entry fs text with
      | none => pure ⟨-1, none, []⟩
      | some file => do
        let entry := entry_at file
        let file_size := load32 fs.directory.bytes (entry + 36)
        if file_size.toNat > MVHFS_FILE_MAX ∨ capacity < file_size ∨
            (buffer = false ∧ file_size ≠ 0) then pure ⟨-2, some file_size, []⟩
        else
          let active_slot := load32 fs.directory.bytes (entry + 44)
          if active_slot > 1 then pure ⟨-3, some file_size, []⟩
          else do
            let (status, output) ← mvhfs_read_loop fs.device_id (data_lba file active_slot)
              file_size.toNat (load32 fs.directory.bytes (entry + 40)) file_size.toNat 0 0 0 []
            pure ⟨status, some file_size, output⟩

def mvhfs_remove (fs : Mvhfs) (name : Option Mem) : Io (Int × Mvhfs) :=
  match name with
  | none => pure (-1, fs)
  | some text =>
    if fs.mounted = 0 ∨ valid_name (some text) = false then pure (-1, fs)
    else
      match find_entry fs text with
      | none => pure (-1, fs)
      | some file => do
        let entry := entry_at file
        let backup := shift fs.directory.bytes entry
        let fs := fs.edit fun directory => fill directory entry MVHFS_ENTRY_SIZE 0
        let (status, fs) ← commit_directory fs
        if status ≠ 0 then
          pure (-1, fs.edit fun directory => copy directory entry backup 0 MVHFS_ENTRY_SIZE)
        else pure (0, fs)

def mvhfs_list_step (fs : Mvhfs) (capacity : Nat) :
    Nat × List (List UInt8 × UInt32) → Nat → Nat × List (List UInt8 × UInt32)
  | (count, entries), index =>
    let entry := entry_at index
    if load32 fs.directory.bytes (entry + 32) = 0 then (count, entries)
    else if count < capacity then
      (count + 1, entries ++
        [(slice fs.directory.bytes entry MVHFS_NAME_MAX, load32 fs.directory.bytes (entry + 36))])
    else (count + 1, entries)

/-- The result is the count and the entries that come into the caller's array, each a name field
and a size. -/
def mvhfs_list (fs : Mvhfs) (capacity : Nat) : Nat × List (List UInt8 × UInt32) :=
  if fs.mounted = 0 then (0, [])
  else (List.range MVHFS_MAX_FILES).foldl (mvhfs_list_step fs capacity) (0, [])

end mvh.mvhfs
