-- What the symbols of relocations refer to in an image that `module_elf_load` accepts.
import MvhKernel.ModuleImages

open flat_memory (Mem slice)
open loops

namespace mvh.module

theorem apply_relocation_ne_stop (l : Loader) (type : UInt32) (place v : UInt64) :
    (apply_relocation l type place v).2 ≠ .stop := by
  unfold apply_relocation
  grind

theorem relocate_item_ne_stop (i : Image) (e : List Export) (p : Plan) (r : Section)
    (it : Nat) (l : Loader) : (relocate_item i e p r it l).2 ≠ .stop := by
  unfold relocate_item
  dsimp only
  split
  · exact nofun
  split
  · exact nofun
  · exact apply_relocation_ne_stop _ _ _ _

theorem relocate_section_ne_stop (i : Image) (e : List Export) (p : Plan) (index : Nat)
    (l : Loader) : (relocate_section i e p index l).2 ≠ .stop := by
  unfold relocate_section
  dsimp only
  split
  · exact nofun
  split
  · exact nofun
  · exact wrappingLoop_ne_stop (relocate_item_ne_stop i e p _) _ _ _

theorem module_elf_load_zero {rs : Nat → Int} {r r' : Registry} {i : Image} {e : List Export}
    {kcalloc : UInt64 → Option UInt64} {m : Mem} {l : Name}
    (h : module_elf_load rs r i e kcalloc m = some (r', 0, l)) :
    ∃ p a, elf_plan i = some p ∧ kcalloc p.layout.allocation_size = some a ∧
      (elf_fill i e p a m).2 = .next := by
  unfold module_elf_load at h
  split at h
  · cases h
  next p hp =>
  split at h
  · cases h
  next a ha =>
  refine ⟨p, a, hp, ha, ?_⟩
  dsimp only at h
  have hs := loop_ne_stop (relocate_section_ne_stop i e p) i.section_count.toNat
    (copy_loop i p.layout a i.section_count.toNat
      ⟨flat_memory.fill m a.toNat p.layout.allocation_size.toNat 0, [], fun _ => 0⟩)
  change (elf_fill i e p a m).2 ≠ .stop at hs
  rcases hf : elf_fill i e p a m with ⟨ld, f⟩
  rw [hf] at h hs
  cases f with
  | next => rfl
  | stop => exact absurd rfl hs
  | fail => cases h
  | hang => cases h

/-! ## The law of symbols -/

end mvh.module
