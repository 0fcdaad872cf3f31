-- The ELF loader of `module.c` up to the descriptor: the checks on an image, the layout
-- of its sections, the copies and the relocations.
import MvhKernel.FlatMemory
import MvhKernel.Loops
import MvhKernel.Ranges

open flat_memory loops ranges

namespace mvh.module

def ELF_SECTION_LIMIT : UInt16 := 128
def ELF_MAGIC : UInt32 := 0x464C457F
def ELFCLASS64 : UInt8 := 2
def ELFDATA2LSB : UInt8 := 1
def ET_REL : UInt16 := 1
def EM_X86_64 : UInt16 := 62
def SHT_SYMTAB : UInt32 := 2
def SHT_RELA : UInt32 := 4
def SHT_NOBITS : UInt32 := 8
def SHF_ALLOC : UInt64 := 2
def SHN_UNDEF : UInt16 := 0
def SHN_ABS : UInt16 := 0xFFF1
def R_X86_64_NONE : UInt32 := 0
def R_X86_64_64 : UInt32 := 1
def R_X86_64_PC32 : UInt32 := 2
def R_X86_64_PLT32 : UInt32 := 4
def R_X86_64_32 : UInt32 := 10
def R_X86_64_32S : UInt32 := 11

/-- The bytes at the pointer that the loader is given. -/
structure Image where
  bytes : Mem
  size : UInt64

/-! ## Records of the file -/

structure Section where
  type : UInt32
  flags : UInt64
  offset : UInt64
  size : UInt64
  link : UInt32
  info : UInt32
  alignment : UInt64
  entry_size : UInt64

structure Symbol where
  name : UInt32
  section_index : UInt16
  value : UInt64

structure Rela where
  offset : UInt64
  info : UInt64
  addend : UInt64

def section_at (m : Mem) (a : Nat) : Section where
  type := load32 m (a + 4)
  flags := load64 m (a + 8)
  offset := load64 m (a + 24)
  size := load64 m (a + 32)
  link := load32 m (a + 40)
  info := load32 m (a + 44)
  alignment := load64 m (a + 48)
  entry_size := load64 m (a + 56)

def symbol_at (m : Mem) (a : Nat) : Symbol where
  name := load32 m a
  section_index := load16 m (a + 6)
  value := load64 m (a + 8)

def rela_at (m : Mem) (a : Nat) : Rela where
  offset := load64 m a
  info := load64 m (a + 8)
  addend := load64 m (a + 16)

def range_valid (offset length total : UInt64) : Bool := offset ≤ total && length ≤ total - offset

namespace Image

def section_offset (image : Image) : UInt64 := load64 image.bytes 40

def section_count (image : Image) : UInt16 := load16 image.bytes 60

def header_valid (image : Image) : Bool :=
  64 ≤ image.size && load32 image.bytes 0 == ELF_MAGIC && image.bytes 4 == ELFCLASS64 &&
    image.bytes 5 == ELFDATA2LSB && load16 image.bytes 16 == ET_REL &&
    load16 image.bytes 18 == EM_X86_64 && load16 image.bytes 52 == 64 &&
    load16 image.bytes 58 == 64 && image.section_count != 0 &&
    image.section_count ≤ ELF_SECTION_LIMIT &&
    range_valid image.section_offset (image.section_count.toUInt64 * 64) image.size

def sectionOf (image : Image) (index : Nat) : Section :=
  section_at image.bytes (image.section_offset.toNat + 64 * index)

end Image

def Section.allocated (s : Section) : Bool := s.flags &&& SHF_ALLOC != 0

def Section.alignmentOf (s : Section) : UInt64 := if s.alignment = 0 then 1 else s.alignment

/-! ## The layout -/

def mvh_is_power_of_two_u64 (value : UInt64) : Bool := value != 0 && value &&& (value - 1) == 0

def mvh_align_up_u64 (value alignment : UInt64) : UInt64 :=
  if mvh_is_power_of_two_u64 alignment = false then 0
  else
    let mask := alignment - 1
    if value > 0xFFFFFFFFFFFFFFFF - mask then 0 else (value + mask) &&& ~~~mask

def mvh_checked_add_u64 (left right : UInt64) : Option UInt64 :=
  if left > 0xFFFFFFFFFFFFFFFF - right then none else some (left + right)

structure Layout where
  allocation_size : UInt64
  offsets : Nat → UInt64
  symbol_section : Option Nat

def Layout.place (layout : Layout) (index : Nat) (sec : Section) : Option Layout :=
  let allocation_size := mvh_align_up_u64 layout.allocation_size sec.alignmentOf
  if allocation_size = 0 ∧ layout.offsets index ≠ 0 then none
  else
    match mvh_checked_add_u64 allocation_size sec.size with
    | none => none
    | some total =>
      some { layout with
        allocation_size := total
        offsets := Function.update layout.offsets index allocation_size }

def Layout.noteSymbols (layout : Layout) (index : Nat) (sec : Section) : Option Layout :=
  if sec.type = SHT_SYMTAB then
    if layout.symbol_section ≠ none then none else some { layout with symbol_section := some index }
  else some layout

def layout_section (image : Image) (index : Nat) (layout : Layout) : Option Layout :=
  let sec := image.sectionOf index
  let alignment := sec.alignmentOf
  if alignment &&& (alignment - 1) ≠ 0 ∨ alignment > 4096 then none
  else if sec.type ≠ SHT_NOBITS ∧ range_valid sec.offset sec.size image.size = false then none
  else if sec.allocated then
    match layout.place index sec with
    | none => none
    | some layout => layout.noteSymbols index sec
  else layout.noteSymbols index sec

def layout_loop (image : Image) : Nat → Option Layout
  | 0 => some { allocation_size := 0, offsets := fun _ => 0, symbol_section := none }
  | count + 1 =>
    match layout_loop image count with
    | none => none
    | some layout => layout_section image count layout

/-- What the second part of the loader works with. -/
structure Plan where
  layout : Layout
  symbol_section : Section
  string_section : Section

def elf_plan (image : Image) : Option Plan :=
  if image.header_valid = false then none
  else
    match layout_loop image image.section_count.toNat with
    | none => none
    | some layout =>
      match layout.symbol_section with
      | none => none
      | some index =>
        let symbol_section := image.sectionOf index
        let string_section := image.sectionOf symbol_section.link.toNat
        if layout.allocation_size = 0 ∨ symbol_section.entry_size ≠ 24 ∨
            symbol_section.link ≥ image.section_count.toUInt32 ∨ symbol_section.size % 24 ≠ 0 then none
        else if range_valid string_section.offset string_section.size image.size = false then none
        else some { layout, symbol_section, string_section }

/-! ## The allocation -/

/-- What `kcalloc` returns for a size: an address of that many bytes of the address space. -/
structure Allocation (size : UInt64) where
  address : UInt64
  not_null : address ≠ 0
  fits : address.toNat + size.toNat ≤ 2 ^ 64

/-- The memory that is written, where the stores so far went, and the addresses of
the sections. -/
structure Loader where
  memory : Mem
  written : List Range
  section_addresses : Nat → UInt64

def mvh_mem_copy (loader : Loader) (destination : UInt64) (image : Image) (source size : UInt64) : Loader :=
  if destination = 0 ∧ size ≠ 0 then loader
  else { loader with
    memory := copy loader.memory destination.toNat image.bytes source.toNat size.toNat
    written := ⟨destination.toNat, size.toNat⟩ :: loader.written }

def copy_section (image : Image) (layout : Layout) (allocation : UInt64) (index : Nat) (loader : Loader) : Loader :=
  let sec := image.sectionOf index
  if sec.allocated = false then loader
  else
    let address := allocation + layout.offsets index
    let loader := { loader with section_addresses := Function.update loader.section_addresses index address }
    if sec.type ≠ SHT_NOBITS then mvh_mem_copy loader address image sec.offset sec.size
    else loader

def copy_loop (image : Image) (layout : Layout) (allocation : UInt64) : Nat → Loader → Loader
  | 0, loader => loader
  | count + 1, loader => copy_section image layout allocation count (copy_loop image layout allocation count loader)

/-! ## Symbols -/

abbrev Text := List UInt8

/-- The owner may be the null pointer. -/
structure Export where
  name : Text
  address : UInt64
  owner : Option Text

def module_resolve_symbol (exports : List Export) (name : Text) : UInt64 :=
  match exports.find? fun entry => entry.name == name with
  | none => 0
  | some entry => entry.address

def mvh_str_nlength (m : Mem) (a : Nat) : Nat → Nat
  | 0 => 0
  | limit + 1 => if m a = 0 then 0 else mvh_str_nlength m (a + 1) limit + 1

/-- `mvh_str_equal` of the string at `a` and a text without a NUL. -/
def mvh_str_equal (m : Mem) (a : Nat) : Text → Bool
  | [] => m a == 0
  | c :: text => m a == c && mvh_str_equal m (a + 1) text

def resolve_elf_symbol (image : Image) (exports : List Export) (symbol : Symbol) (strings : Section)
    (sections : Nat → UInt64) : UInt64 :=
  if symbol.section_index = SHN_ABS then symbol.value
  else if symbol.section_index = SHN_UNDEF then
    let remaining := strings.size.toNat - symbol.name.toNat
    let a := strings.offset.toNat + symbol.name.toNat
    if symbol.name.toUInt64 ≥ strings.size ∨ mvh_str_nlength image.bytes a remaining = remaining then 0
    else module_resolve_symbol exports (slice image.bytes a (mvh_str_nlength image.bytes a remaining))
  else if symbol.section_index ≥ image.section_count ∨ sections symbol.section_index.toNat = 0 then 0
  else sections symbol.section_index.toNat + symbol.value

/-! ## Relocations -/

def signed (v : UInt64) : Int := v.toBitVec.toInt

def Loader.store64 (loader : Loader) (place value : UInt64) : Loader :=
  { loader with
    memory := flat_memory.store64 loader.memory place.toNat value
    written := ⟨place.toNat, 8⟩ :: loader.written }

def Loader.store32 (loader : Loader) (place : UInt64) (value : UInt32) : Loader :=
  { loader with
    memory := flat_memory.store32 loader.memory place.toNat value
    written := ⟨place.toNat, 4⟩ :: loader.written }

def apply_relocation (loader : Loader) (type : UInt32) (place value : UInt64) : Loader × Flow :=
  if type = R_X86_64_NONE then (loader, .next)
  else if type = R_X86_64_64 then (loader.store64 place value, .next)
  else if type = R_X86_64_PC32 ∨ type = R_X86_64_PLT32 then
    let relative := value - place
    if signed relative < -2147483648 ∨ signed relative > 2147483647 then (loader, .fail)
    else (loader.store32 place relative.toUInt32, .next)
  else if type = R_X86_64_32 then
    if signed value < 0 ∨ value > 0xFFFFFFFF then (loader, .fail)
    else (loader.store32 place value.toUInt32, .next)
  else if type = R_X86_64_32S then
    if signed value < -2147483648 ∨ signed value > 2147483647 then (loader, .fail)
    else (loader.store32 place value.toUInt32, .next)
  else (loader, .fail)

def relocation_width (type : UInt32) : UInt64 := if type = R_X86_64_64 then 8 else 4

def relocate_item (image : Image) (exports : List Export) (plan : Plan) (relocations : Section)
    (item : Nat) (loader : Loader) : Loader × Flow :=
  let relocation := rela_at image.bytes (relocations.offset.toNat + 24 * item)
  let symbol_index := (relocation.info >>> 32).toUInt32
  let type := relocation.info.toUInt32
  let target := image.sectionOf relocations.info.toNat
  if symbol_index.toUInt64 ≥ plan.symbol_section.size / 24 ∨ relocation.offset > target.size ∨
      target.size - relocation.offset < relocation_width type then (loader, .fail)
  else
    let symbol := symbol_at image.bytes (plan.symbol_section.offset.toNat + 24 * symbol_index.toNat)
    let value := resolve_elf_symbol image exports symbol plan.string_section loader.section_addresses
    if value = 0 ∧ symbol.section_index = SHN_UNDEF then (loader, .fail)
    else apply_relocation loader type (loader.section_addresses relocations.info.toNat + relocation.offset)
      (value + relocation.addend)

/-- One turn of the loop over the sections. -/
def relocate_section (image : Image) (exports : List Export) (plan : Plan) (index : Nat) (loader : Loader) :
    Loader × Flow :=
  let relocations := image.sectionOf index
  if relocations.type ≠ SHT_RELA then (loader, .next)
  else if relocations.info ≥ image.section_count.toUInt32 ∨
      loader.section_addresses relocations.info.toNat = 0 ∨
      relocations.entry_size ≠ 24 ∨ relocations.size % 24 ≠ 0 then (loader, .fail)
  else
    wrappingLoop (relocate_item image exports plan relocations) (2 ^ 32) (relocations.size / 24).toNat loader

/-- The copies and the relocations. -/
def elf_fill (image : Image) (exports : List Export) (plan : Plan) (allocation : UInt64) (memory : Mem) :
    Loader × Flow :=
  let cleared := fill memory allocation.toNat plan.layout.allocation_size.toNat 0
  let loader : Loader := { memory := cleared, written := [], section_addresses := fun _ => 0 }
  loop (relocate_section image exports plan) image.section_count.toNat
    (copy_loop image plan.layout allocation image.section_count.toNat loader)

end mvh.module
