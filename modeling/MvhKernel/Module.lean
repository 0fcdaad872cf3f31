-- The module table of `module.c`.
import MvhKernel.Elf
import MvhKernel.KeyedList

open flat_memory loops keyed_list

namespace mvh.module

def MODULE_LIMIT : Nat := 32
def MVH_MODULE_NAME_MAX : Nat := 48
def MVH_MODULE_VERSION_MAX : Nat := 24
def MVH_MODULE_MAX_DEPENDENCIES : UInt32 := 8
def MVH_MODULE_BUILTIN : UInt32 := 1
def MVH_KERNEL_ABI_VERSION : UInt32 := 2

inductive State where
  | UNLOADED
  | REGISTERED
  | LOADING
  | LIVE
  | FAILED
  | UNLOADING
  deriving DecidableEq

abbrev Name := Option Text

/-- A descriptor with the strings that it points to. -/
structure Descriptor where
  structure_size : UInt32
  kernel_abi : UInt32
  name : Name
  version : Name
  flags : UInt32
  dependency_count : UInt32
  dependencies : Option (Nat → Name)
  init : UInt64
  exit : UInt64

def Descriptor.dependencyNames (descriptor : Descriptor) : List Name :=
  match descriptor.dependencies with
  | none => []
  | some table => (List.range descriptor.dependency_count.toNat).map table

structure Slot where
  descriptor : Descriptor
  state : State
  references : UInt32
  image : UInt64
  image_size : UInt64
  owned : Bool

def Slot.name (slot : Slot) : Name := slot.descriptor.name

/-- The table, the live allocations of images, and the modules whose `init` was called, last first. -/
structure Registry where
  modules : List Slot
  heap : List UInt64
  inits : List Name

def find_slot (r : Registry) (name : Name) : Option Nat := place Slot.name r.modules name

def Registry.update (r : Registry) (position : Nat) (f : Slot → Slot) : Registry :=
  { r with modules := r.modules.modify position f }

def nameFits (name : Name) (limit : Nat) : Bool :=
  match name with
  | none => false
  | some text => text.length < limit

def descriptor_valid (descriptor : Descriptor) : Bool :=
  descriptor.structure_size == 56 && descriptor.kernel_abi == MVH_KERNEL_ABI_VERSION &&
    descriptor.name != some [] && nameFits descriptor.name MVH_MODULE_NAME_MAX &&
    nameFits descriptor.version MVH_MODULE_VERSION_MAX &&
    descriptor.dependency_count ≤ MVH_MODULE_MAX_DEPENDENCIES &&
    (descriptor.dependency_count == 0 || descriptor.dependencies.isSome) &&
    descriptor.dependencyNames.all fun name => name != none && name != some [] && name != descriptor.name

def module_init : Registry := { modules := [], heap := [], inits := [] }

/-! ## Registering -/

def register_descriptor (r : Registry) (descriptor : Option Descriptor) (image image_size : UInt64)
    (owned live : Bool) : Registry × Int :=
  match descriptor with
  | none => (r, -1)
  | some descriptor =>
    if descriptor_valid descriptor = false then (r, -1)
    else if find_slot r descriptor.name ≠ none ∨ r.modules.length = MODULE_LIMIT then (r, -1)
    else
      let slot : Slot := {
        descriptor
        state := if live then .LIVE else .REGISTERED
        references := 0
        image
        image_size
        owned }
      ({ r with modules := r.modules ++ [slot] }, 0)

def module_register (r : Registry) (descriptor : Option Descriptor) : Registry × Int :=
  register_descriptor r descriptor 0 0 false false

def module_register_builtin (r : Registry) (descriptor : Option Descriptor) : Registry × Int :=
  match descriptor with
  | none => (r, -1)
  | some d => if d.flags &&& MVH_MODULE_BUILTIN = 0 then (r, -1) else register_descriptor r (some d) 0 0 false true

/-! ## References -/

def module_acquire (r : Registry) (name : Name) : Registry × Int :=
  match find_slot r name with
  | none => (r, -1)
  | some position =>
    match r.modules[position]? with
    | none => (r, -1)
    | some slot =>
      if slot.state ≠ .LIVE ∨ slot.references = 0xFFFFFFFF then (r, -1)
      else (r.update position fun slot => { slot with references := slot.references + 1 }, 0)

def module_release (r : Registry) (name : Name) : Registry :=
  match find_slot r name with
  | none => r
  | some position =>
    r.update position fun slot =>
      if slot.references ≠ 0 then { slot with references := slot.references - 1 } else slot

def releaseAll (r : Registry) (names : List Name) : Registry := names.foldl module_release r

/-! ## Loading -/

/-- What the first critical section of `module_load` finds. -/
inductive LoadBegin where
  | refused
  | already
  | begun (position : Nat) (descriptor : Descriptor) (r : Registry)

def load_begin (r : Registry) (name : Name) : LoadBegin :=
  match find_slot r name with
  | none => .refused
  | some position =>
    match r.modules[position]? with
    | none => .refused
    | some slot =>
      if slot.state = .LOADING ∨ slot.state = .UNLOADING then .refused
      else if slot.state = .LIVE then .already
      else .begun position slot.descriptor (r.update position fun slot => { slot with state := .LOADING })

/-- The last critical section of `module_load`, through the saved slot pointer. -/
def load_end (r : Registry) (position : Nat) (result : Int) : Registry :=
  r.update position fun slot => { slot with state := if result = 0 then .LIVE else .FAILED }

/-- The loop over the dependencies. -/
def load_dependencies (load : Registry → Name → Registry × Int) :
    Registry → List Name → List Name → Registry × List Name × Int
  | r, [], acquired => (r, acquired, 0)
  | r, name :: names, acquired =>
    match load r name with
    | (r, result) =>
      if result ≠ 0 then (r, acquired, -1)
      else
        match module_acquire r name with
        | (r, result) =>
          if result ≠ 0 then (r, acquired, -1) else load_dependencies load r names (name :: acquired)

/-- The call of `init`. -/
def call_init (results : Nat → Int) (r : Registry) (descriptor : Descriptor) : Registry × Int :=
  if descriptor.init = 0 then (r, 0)
  else ({ r with inits := descriptor.name :: r.inits }, results r.inits.length)

def load_at (results : Nat → Int) : Nat → Registry → Name → Registry × Int
  | 0, r, _ => (r, -1)
  | depth + 1, r, name =>
    match load_begin r name with
    | .refused => (r, -1)
    | .already => (r, 0)
    | .begun position descriptor r =>
      match load_dependencies (load_at results depth) r descriptor.dependencyNames [] with
      | (r, acquired, result) =>
        match if result = 0 then call_init results r descriptor else (r, result) with
        | (r, result) =>
          let r := if result ≠ 0 then releaseAll r acquired else r
          (load_end r position result, result)

/-- Each level has one more slot in `LOADING`, so the depth is never reached. -/
def module_load (results : Nat → Int) (r : Registry) (name : Name) : Registry × Int :=
  load_at results (MODULE_LIMIT + 1) r name

/-! ## Unloading -/

/-- The first critical section of `module_unload`: the saved position and slot. -/
def unload_begin (r : Registry) (name : Name) : Option (Nat × Slot × Registry) :=
  match find_slot r name with
  | none => none
  | some position =>
    match r.modules[position]? with
    | none => none
    | some slot =>
      if slot.state ≠ .LIVE ∨ slot.references ≠ 0 ∨ slot.descriptor.flags &&& MVH_MODULE_BUILTIN ≠ 0 then none
      else some (position, slot, r.update position fun slot => { slot with state := .UNLOADING })

/-- The slots behind `position` move up and the count goes down. -/
def remove_at (r : Registry) (position : Nat) : Option Registry :=
  if r.modules = [] then none
  else if position < r.modules.length then some { r with modules := r.modules.eraseIdx position }
  else some { r with modules := r.modules.dropLast }

def kfree (r : Registry) (image : UInt64) : Registry := { r with heap := r.heap.erase image }

def module_unload (r : Registry) (name : Name) : Option (Registry × Int) :=
  match unload_begin r name with
  | none => some (r, -1)
  | some (position, slot, r) =>
    match remove_at (releaseAll r slot.descriptor.dependencyNames) position with
    | none => none
    | some r => some (if slot.owned then kfree r slot.image else r, 0)

/-! ## Loading an image -/

def allocation_range_valid (pointer length allocation allocation_size : UInt64) : Bool :=
  allocation ≤ pointer && length ≤ allocation_size && pointer - allocation ≤ allocation_size - length

def descriptorSymbol : Text := "mvh_module_descriptor".toList.map fun c => c.toNat.toUInt8

def find_symbol (image : Image) (exports : List Export) (plan : Plan) (loader : Loader) (index : Nat)
    (found : UInt64) : UInt64 × Flow :=
  let symbol := symbol_at image.bytes (plan.symbol_section.offset.toNat + 24 * index)
  let strings := plan.string_section
  if symbol.name.toUInt64 ≥ strings.size then (found, .fail)
  else if mvh_str_equal image.bytes (strings.offset.toNat + symbol.name.toNat) descriptorSymbol = false then
    (found, .next)
  else (resolve_elf_symbol image exports symbol strings loader.section_addresses, .stop)

def remaining (allocation allocation_size pointer : UInt64) : Nat :=
  (allocation_size - (pointer - allocation)).toNat

def text_valid (m : Mem) (allocation allocation_size pointer : UInt64) : Bool :=
  allocation_range_valid pointer 1 allocation allocation_size &&
    mvh_str_nlength m pointer.toNat (remaining allocation allocation_size pointer) <
      remaining allocation allocation_size pointer

def text_at (m : Mem) (allocation allocation_size pointer : UInt64) : Name :=
  if pointer = 0 then none
  else some (slice m pointer.toNat (mvh_str_nlength m pointer.toNat (remaining allocation allocation_size pointer)))

def descriptor_at (m : Mem) (allocation allocation_size pointer : UInt64) : Descriptor :=
  let a := pointer.toNat
  let dependencies := load64 m (a + 32)
  { structure_size := load32 m a
    kernel_abi := load32 m (a + 4)
    name := text_at m allocation allocation_size (load64 m (a + 8))
    version := text_at m allocation allocation_size (load64 m (a + 16))
    flags := load32 m (a + 24)
    dependency_count := load32 m (a + 28)
    dependencies :=
      if dependencies = 0 then none
      else some fun i => text_at m allocation allocation_size (load64 m (dependencies.toNat + 8 * i))
    init := load64 m (a + 40)
    exit := load64 m (a + 48) }

def elf_descriptor_valid (m : Mem) (allocation allocation_size pointer : UInt64) : Bool :=
  let a := pointer.toNat
  let valid := fun pointer length => allocation_range_valid pointer length allocation allocation_size
  let text := text_valid m allocation allocation_size
  let count := load32 m (a + 28)
  let dependencies := load64 m (a + 32)
  pointer != 0 && valid pointer 56 && text (load64 m (a + 8)) && text (load64 m (a + 16)) &&
    (count == 0 || valid dependencies (count.toUInt64 * 8)) &&
    ((List.range count.toNat).all fun i => text (load64 m (dependencies.toNat + 8 * i))) &&
    (load64 m (a + 40) == 0 || valid (load64 m (a + 40)) 1) &&
    (load64 m (a + 48) == 0 || valid (load64 m (a + 48)) 1)

/-- The critical section after a failed load: the slot of that name is removed, whatever it is. -/
def elf_remove (r : Registry) (name : Name) : Registry :=
  match find_slot r name with
  | none => r
  | some position => { r with modules := r.modules.eraseIdx position }

/-- `module_elf_load` from `register_descriptor` on. -/
def elf_register (results : Nat → Int) (r : Registry) (descriptor : Descriptor)
    (allocation allocation_size : UInt64) : Registry × Int × Name :=
  match register_descriptor r (some descriptor) allocation allocation_size true false with
  | (r, result) =>
    if result ≠ 0 then (kfree r allocation, -1, none)
    else
      match module_load results r descriptor.name with
      | (r, result) =>
        if result ≠ 0 then (kfree (elf_remove r descriptor.name) allocation, -1, none)
        else (r, 0, descriptor.name)

/-- `kcalloc` has the answer of the heap for a size, `memory` what the machine holds before. -/
def module_elf_load (results : Nat → Int) (r : Registry) (image : Image) (exports : List Export)
    (kcalloc : UInt64 → Option UInt64) (memory : Mem) : Option (Registry × Int × Name) :=
  match elf_plan image with
  | none => some (r, -1, none)
  | some plan =>
    match kcalloc plan.layout.allocation_size with
    | none => some (r, -1, none)
    | some allocation =>
      let r := { r with heap := allocation :: r.heap }
      let failed := some (kfree r allocation, (-1 : Int), none)
      match elf_fill image exports plan allocation memory with
      | (_, .fail) => failed
      | (_, .hang) => none
      | (loader, _) =>
        match wrappingLoop (find_symbol image exports plan loader) (2 ^ 32) (plan.symbol_section.size / 24).toNat 0 with
        | (_, .fail) => failed
        | (_, .hang) => none
        | (pointer, _) =>
          let size := plan.layout.allocation_size
          if elf_descriptor_valid loader.memory allocation size pointer = false then failed
          else some (elf_register results r (descriptor_at loader.memory allocation size pointer) allocation size)

end mvh.module
