-- The set-up of `vmm.c` and its self test, on top of the page allocator of `pmm.c`: every
-- call here may take pages from it for tables, and the self test takes and returns one
-- page more.
import MvhKernel.PmmClients
import MvhKernel.VmmRefine

open flat_memory

namespace mvh.vmm

open pmm

/-! ## The page allocator -/

def allocPage (_ : Mem) (pmm : Pmm) : UInt64 × Pmm := (pmm_alloc_pages pmm 1).getD (0, pmm)

def freePages (s : Vmm Pmm) (address : UInt64) (count : UInt32) : Vmm Pmm :=
  { s with pmm := (pmm_free_pages s.pmm address count).getD s.pmm }

/-! ## Set-up -/

/-- The addresses that the linker gives to the parts of the kernel. -/
structure Layout where
  kernel_start : UInt64
  text_end : UInt64
  rodata_start : UInt64
  rodata_end : UInt64
  kernel_end : UInt64

def andThen (r : Vmm Pmm × Int) (next : Vmm Pmm → Vmm Pmm × Int) : Vmm Pmm × Int :=
  match r with
  | (s, 0) => next s
  | (s, _) => (s, -1)

/-- The loop that maps pages to themselves while the address is below the last one, with a bound
on the turns. -/
def mapEach (flags last : UInt64) : Nat → UInt64 → Vmm Pmm → Vmm Pmm × Int
  | 0, _, s => (s, 0)
  | turns + 1, address, s =>
    if address < last then
      andThen (vmm_map_page allocPage s address address flags)
        (mapEach flags last turns (address + 4096))
    else (s, 0)

def turnsTo (address last : UInt64) : Nat := (last.toNat - address.toNat) / 4096 + 1

def roundUp (address : UInt64) : UInt64 := (address + 4096 - 1) &&& ~~~(4096 - 1)

/-- The pages of the kernel: first the text, then the constants, then the rest. -/
def protect (layout : Layout) (s : Vmm Pmm) : Vmm Pmm × Int :=
  andThen (mapEach VMM_GLOBAL layout.text_end (turnsTo layout.kernel_start layout.text_end)
    layout.kernel_start s) fun s =>
  andThen (mapEach (VMM_GLOBAL ||| VMM_NO_EXECUTE) layout.rodata_end
    (turnsTo layout.rodata_start layout.rodata_end) layout.rodata_start s) fun s =>
  mapEach (VMM_WRITABLE ||| VMM_GLOBAL ||| VMM_NO_EXECUTE) (roundUp layout.kernel_end)
    (turnsTo (roundUp layout.rodata_end) (roundUp layout.kernel_end)) (roundUp layout.rodata_end) s

def identityGib (flags : UInt64) : Nat := if flags &&& 0x40 ≠ 0 then 4 else 1

def vmm_init (flags : UInt64) (layout : Layout) (s : Vmm Pmm) : Vmm Pmm × Int :=
  let s := { s with mapped_page_count := bootCount (identityGib flags) }
  andThen (vmm_unmap_page allocPage s 0) (protect layout)

/-! ## The self test -/

abbrev TEST_ADDRESS : UInt64 := 0x40000000
abbrev TEST_VALUE : UInt64 := 0x4D5648313132

/-- The way out of the self test after its page did not read back as it should. -/
def testFails (s : Vmm Pmm) (physical : UInt64) : Vmm Pmm × Int :=
  let (s, _) := vmm_unmap_page allocPage s TEST_ADDRESS
  (freePages s physical 1, -1)

def testUnmaps (s : Vmm Pmm) (physical : UInt64) : Vmm Pmm × Int :=
  match vmm_unmap_page allocPage s TEST_ADDRESS with
  | (s, 0) =>
    match vmm_query_page allocPage s TEST_ADDRESS with
    | (s, some _) => (freePages s physical 1, -1)
    | (s, none) => (freePages s physical 1, 0)
  | (s, _) => (freePages s physical 1, -1)

/-- The stores and loads through the test address go to the page that was just mapped there. -/
def vmm_self_test (s : Vmm Pmm) : Vmm Pmm × Int :=
  let (physical, pmm) := allocPage s.mem s.pmm
  let s := { s with pmm }
  if physical = 0 then (s, -1)
  else
    match vmm_map_page allocPage s TEST_ADDRESS physical (VMM_WRITABLE ||| VMM_NO_EXECUTE) with
    | (s, 0) =>
      let s := { s with mem := store64 s.mem physical.toNat TEST_VALUE }
      if load64 s.mem physical.toNat ≠ TEST_VALUE then testFails s physical
      else
        match vmm_query_page allocPage s TEST_ADDRESS with
        | (s, none) => testFails s physical
        | (s, some (queried, flags)) =>
          if queried ≠ physical ∨ flags &&& VMM_NO_EXECUTE = 0 then testFails s physical
          else testUnmaps s physical
    | (s, _) => (freePages s physical 1, -1)

/-! ## What holds after a step -/

theorem andThen_rule {P Q : Vmm Pmm → Prop} {r : Vmm Pmm × Int} {next : Vmm Pmm → Vmm Pmm × Int}
    (h : P r.1) (hs : ∀ s, P s → Q s) (hn : ∀ s, P s → Q (next s).1) :
    Q (andThen r next).1 := by
  rcases r with ⟨s, rs⟩
  unfold andThen
  grind

theorem testUnmaps_rule {u q after : Vmm Pmm → Prop} {s : Vmm Pmm} {p : UInt64}
    (hu : u (vmm_unmap_page allocPage s TEST_ADDRESS).1)
    (hqr : ∀ s, u s → q (vmm_query_page allocPage s TEST_ADDRESS).1)
    (hs : ∀ s, u s → after (freePages s p 1))
    (he : ∀ s, q s → after (freePages s p 1)) : after (testUnmaps s p).1 := by
  unfold testUnmaps
  grind

end mvh.vmm
