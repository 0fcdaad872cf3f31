-- Which bytes of the image `module_elf_load` reads.
import MvhKernel.ModuleImages

open flat_memory (Mem slice)
open loops ranges

namespace mvh.module

/-! ## The reads -/

/-- The loader after the copies, which the relocations start from. -/
def copied (image : Image) (plan : Plan) (allocation : UInt64) (memory : Mem) : Loader :=
  copy_loop image plan.layout allocation image.section_count.toNat
    ⟨flat_memory.fill memory allocation.toNat plan.layout.allocation_size.toNat 0, [], fun _ => 0⟩

def nameOf (image : Image) (plan : Plan) (index : Nat) : UInt32 :=
  (symbol_at image.bytes (plan.symbol_section.offset.toNat + 24 * index)).name

def Image.file (image : Image) : Range := ⟨0, image.size.toNat⟩

def Section.Stored (sec : Section) (image : Image) : Prop :=
  sec.type ≠ SHT_NOBITS → sec.offset.toNat + sec.size.toNat ≤ image.size.toNat

section
variable {image : Image} {plan : Plan}

end

/-! ## The search -/

section
variable {image : Image} {exports : List Export} {plan : Plan} {loader : Loader} {index : Nat} {found : UInt64}

end

section
variable {image : Image} {exports : List Export} {kcalloc : UInt64 → Option UInt64} {memory : Mem}

end

end mvh.module
