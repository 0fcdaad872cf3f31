-- The page tables of `vmm.c`.
import MvhKernel.FlatMemory

open flat_memory

namespace mvh.vmm

/-! ## The state -/

def PAGE_MASK : UInt64 := 0x000FFFFFFFFFF000
def PAGE_HUGE : UInt64 := 0x80

def VMM_PRESENT : UInt64 := 0x1
def VMM_WRITABLE : UInt64 := 0x2
def VMM_USER : UInt64 := 0x4
def VMM_WRITE_THROUGH : UInt64 := 0x8
def VMM_CACHE_DISABLE : UInt64 := 0x10
def VMM_GLOBAL : UInt64 := 0x100
def VMM_NO_EXECUTE : UInt64 := 0x8000000000000000

/-- The memory, the register with the address of the top table, the counter, and the state of the
page allocator. -/
structure Vmm (A : Type) where
  mem : Mem
  cr3 : UInt64
  mapped_page_count : UInt64
  pmm : A

variable {A : Type} (pmm_alloc_pages : Mem → A → UInt64 × A)

def active_pml4 (s : Vmm A) : UInt64 := s.cr3 &&& PAGE_MASK

/-- The address of the entry of a table that the low nine bits of a number name. -/
def slot (table bits : UInt64) : Nat := table.toNat + 8 * (bits &&& 0x1FF).toNat

/-! ## New tables -/

/-- A loop that writes the entries of a table, from an index on with the entries left. -/
def writeEntries (table : UInt64) (value : Nat → UInt64) : Nat → Nat → Mem → Mem
  | _, 0, m => m
  | index, left + 1, m =>
    writeEntries table value (index + 1) left (store64 m (table.toNat + 8 * index) (value index))

def new_table (s : Vmm A) : Option UInt64 × Vmm A :=
  let (table, pmm) := pmm_alloc_pages s.mem s.pmm
  if table = 0 then (none, { s with pmm })
  else (some table, { s with pmm, mem := writeEntries table (fun _ => 0) 0 512 s.mem })

/-- The entry of the new table at an index, for the entry of the large page. -/
def splitEntry (original : UInt64) (index : Nat) : UInt64 :=
  let base := original &&& 0x000FFFFFFFE00000
  let common := original &&& (VMM_WRITABLE ||| VMM_USER ||| VMM_WRITE_THROUGH |||
    VMM_CACHE_DISABLE ||| VMM_GLOBAL ||| VMM_NO_EXECUTE)
  (base + UInt64.ofNat index * 4096) ||| VMM_PRESENT ||| common

def split_huge_page (s : Vmm A) (entry : Nat) : Option UInt64 × Vmm A :=
  let original := load64 s.mem entry
  match new_table pmm_alloc_pages s with
  | (none, s) => (none, s)
  | (some table, s) =>
    let m := writeEntries table (splitEntry original) 0 512 s.mem
    (some table,
      { s with mem := store64 m entry ((table &&& PAGE_MASK) ||| VMM_PRESENT ||| VMM_WRITABLE) })

/-! ## The walk -/

def addTable (s : Vmm A) (entry : Nat) (create : Bool) : Option UInt64 × Vmm A :=
  if create = false then (none, s)
  else
    match new_table pmm_alloc_pages s with
    | (none, s) => (none, s)
    | (some table, s) =>
      (some table, { s with mem := store64 s.mem entry (table ||| VMM_PRESENT ||| VMM_WRITABLE) })

/-- The walk over an entry of the two upper levels: the table that it leads to. -/
def enter (s : Vmm A) (entry : Nat) (create : Bool) : Option UInt64 × Vmm A :=
  if load64 s.mem entry &&& VMM_PRESENT = 0 then
    match addTable pmm_alloc_pages s entry create with
    | (none, s) => (none, s)
    | (some _, s) => (some (load64 s.mem entry &&& PAGE_MASK), s)
  else (some (load64 s.mem entry &&& PAGE_MASK), s)

/-- The walk over an entry of the third level, which may be a large page. -/
def enterLast (s : Vmm A) (entry : Nat) (create : Bool) : Option UInt64 × Vmm A :=
  if load64 s.mem entry &&& VMM_PRESENT ≠ 0 ∧ load64 s.mem entry &&& PAGE_HUGE ≠ 0 then
    split_huge_page pmm_alloc_pages s entry
  else if load64 s.mem entry &&& VMM_PRESENT = 0 then addTable pmm_alloc_pages s entry create
  else (some (load64 s.mem entry &&& PAGE_MASK), s)

def walk (s : Vmm A) (address : UInt64) (create : Bool) : Option Nat × Vmm A :=
  match enter pmm_alloc_pages s (slot (active_pml4 s) (address >>> 39)) create with
  | (none, s) => (none, s)
  | (some pdpt, s) =>
    match enter pmm_alloc_pages s (slot pdpt (address >>> 30)) create with
    | (none, s) => (none, s)
    | (some pd, s) =>
      match enterLast pmm_alloc_pages s (slot pd (address >>> 21)) create with
      | (none, s) => (none, s)
      | (some pt, s) => (some (slot pt (address >>> 12)), s)

/-! ## The calls -/

def vmm_map_page (s : Vmm A) (virtual_address physical_address flags : UInt64) : Vmm A × Int :=
  if virtual_address &&& (4096 - 1) ≠ 0 ∨ physical_address &&& (4096 - 1) ≠ 0 then (s, -1)
  else
    match walk pmm_alloc_pages s virtual_address true with
    | (none, s) => (s, -1)
    | (some entry, s) =>
      let mapped_page_count := if load64 s.mem entry &&& VMM_PRESENT = 0 then
        s.mapped_page_count + 1 else s.mapped_page_count
      let mem := store64 s.mem entry ((physical_address &&& PAGE_MASK) ||| VMM_PRESENT ||| flags)
      ({ s with mem, mapped_page_count }, 0)

def vmm_unmap_page (s : Vmm A) (virtual_address : UInt64) : Vmm A × Int :=
  if virtual_address &&& (4096 - 1) ≠ 0 then (s, -1)
  else
    match walk pmm_alloc_pages s virtual_address false with
    | (none, s) => (s, -1)
    | (some entry, s) =>
      if load64 s.mem entry &&& VMM_PRESENT = 0 then (s, -1)
      else
        let mapped_page_count := if s.mapped_page_count ≠ 0 then
          s.mapped_page_count - 1 else s.mapped_page_count
        ({ s with mem := store64 s.mem entry 0, mapped_page_count }, 0)

/-- The physical address and the flags, or nothing where the source gives -1. -/
def vmm_query_page (s : Vmm A) (virtual_address : UInt64) : Vmm A × Option (UInt64 × UInt64) :=
  match walk pmm_alloc_pages s virtual_address false with
  | (none, s) => (s, none)
  | (some entry, s) =>
    if load64 s.mem entry &&& VMM_PRESENT = 0 then (s, none)
    else
      (s, some ((load64 s.mem entry &&& PAGE_MASK) ||| (virtual_address &&& (4096 - 1)),
        load64 s.mem entry &&& ~~~ PAGE_MASK))

def vmm_mapped_pages (s : Vmm A) : UInt64 := s.mapped_page_count

end mvh.vmm
