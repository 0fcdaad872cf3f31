-- Where the sections of a module end up.
import MvhKernel.ElfSymbols
import MvhKernel.HeapRuns

open flat_memory (Mem)
open loops ranges runs

namespace mvh.module

/-! ## Addresses of the sections -/

section
variable {image : Image} {layout : Layout} {allocation : UInt64}

theorem mem_copy_addresses (l : Loader) (d : UInt64) (image : Image) (s sz : UInt64) :
    (mvh_mem_copy l d image s sz).section_addresses = l.section_addresses := by
  unfold mvh_mem_copy
  split <;> rfl

theorem copy_section_addresses (image : Image) (layout : Layout) (allocation : UInt64) (index : Nat)
    (l : Loader) :
    (copy_section image layout allocation index l).section_addresses =
      if (image.sectionOf index).allocated then
        Function.update l.section_addresses index (allocation + layout.offsets index)
      else l.section_addresses := by
  unfold copy_section
  grind [mem_copy_addresses]

theorem copy_loop_address {c index : Nat} (hi : index < c)
    (ha : (image.sectionOf index).allocated = true) (l : Loader) :
    (copy_loop image layout allocation c l).section_addresses index =
      allocation + layout.offsets index := by
  induction c with
  | zero => omega
  | succ c ih =>
    unfold copy_loop
    rw [copy_section_addresses]
    grind

theorem apply_relocation_addresses (l : Loader) (type : UInt32) (place v : UInt64) :
    (apply_relocation l type place v).1.section_addresses = l.section_addresses := by
  unfold apply_relocation
  dsimp only
  repeat' split
  all_goals rfl

theorem relocate_section_addresses (image : Image) (e : List Export) (pl : Plan) (index : Nat)
    (ld : Loader) :
    (relocate_section image e pl index ld).1.section_addresses = ld.section_addresses := by
  unfold relocate_section
  dsimp only
  split
  · rfl
  split
  · rfl
  · refine wrappingLoop_keeps (fun l : Loader => l.section_addresses = ld.section_addresses) rfl ?_
    intro i _ l hl
    unfold relocate_item
    dsimp only
    split
    · exact hl
    split
    · exact hl
    · rw [apply_relocation_addresses, hl]

theorem elf_fill_address {pl : Plan} {index : Nat} (hi : index < image.section_count.toNat)
    (ha : (image.sectionOf index).allocated = true) (e : List Export) (allocation : UInt64)
    (mm : Mem) :
    (elf_fill image e pl allocation mm).1.section_addresses index =
      allocation + pl.layout.offsets index := by
  unfold elf_fill
  dsimp only
  refine loop_keeps (fun l : Loader => l.section_addresses index = allocation + pl.layout.offsets index) ?_ ?_
  · exact copy_loop_address hi ha _
  grind [relocate_section_addresses]

end

/-! ## Offsets -/

theorem dvd_align_up {al : UInt64} (h : Aligns al) (v : UInt64) :
    al.toNat ∣ (mvh_align_up_u64 v al).toNat := by
  rw [align_up_toNat h]
  split
  · exact Nat.dvd_mul_left _ _
  · exact Nat.dvd_zero _

theorem layout_loop_aligned {image : Image} {c index : Nat} {layout : Layout}
    (h : layout_loop image c = some layout) (hi : index < c)
    (hal : (image.sectionOf index).allocated = true) :
    Aligns (image.sectionOf index).alignmentOf ∧
      (image.sectionOf index).alignmentOf.toNat ∣ (layout.offsets index).toNat := by
  induction c generalizing layout with
  | zero => omega
  | succ c ih =>
    unfold layout_loop at h
    split at h
    · cases h
    next before hb =>
    obtain ⟨ha, hp⟩ := layout_section_some h rfl
    by_cases hl : index = c
    · subst hl
      rcases hp with ⟨-, s, rfl, -, -, ho⟩ | ⟨hn, -⟩
      · rw [ho, Function.update_self]
        exact ⟨ha, dvd_align_up ha _⟩
      grind
    · have hr := ih hb (by omega)
      rcases hp with ⟨-, s, -, -, -, ho⟩ | ⟨-, -, ho⟩
      · rwa [ho, Function.update_of_ne hl]
      · rwa [ho]

theorem Aligns.dvd_add_iff {al : UInt64} (h : Aligns al) {a b : UInt64}
    (hb : al.toNat ∣ b.toNat) : al.toNat ∣ (a + b).toNat ↔ al.toNat ∣ a.toNat := by
  obtain ⟨k, hk, hp⟩ := h
  have hw : al.toNat ∣ 2 ^ 64 := by
    rw [hp]
    exact Nat.pow_dvd_pow 2 (by omega)
  rw [UInt64.toNat_add, Nat.dvd_mod_iff hw]
  exact Nat.dvd_add_left hb

end mvh.module

namespace mvh.heap

/-! ## The block that an allocation gets -/

def firstFit (h : Heap) (needed : UInt64) : Option Nat :=
  (walk h.memory WALK h.heap_first).bind fun blocks =>
    blocks.find? fun block => isFree h.memory block ≠ 0 ∧ needed ≤ size h.memory block

section
variable {m : Mem} {before a : Nat} {xs ys : List Block} {n : Nat} {needed : UInt64}

theorem suits_iff {after : Nat} {b : Block} (h : HeaderAt m a b before after) :
    (isFree m a ≠ 0 ∧ needed ≤ size m a) ↔ Suits needed.toNat b := by
  unfold Suits
  rw [UInt64.le_iff_toNat_le, h.size, ne_eq, h.free_eq_zero, not_not]

theorem find_places (hsg : Seg m before a (xs ++ ⟨n, none⟩ :: ys) 0)
    (hb : ∀ b ∈ xs, ¬ Suits needed.toNat b) (hn : needed.toNat ≤ n) :
    (places a (xs ++ ⟨n, none⟩ :: ys)).find? (fun bl => isFree m bl ≠ 0 ∧ needed ≤ size m bl) =
      some (a + span xs) := by
  induction xs generalizing before a with
  | nil =>
    have hs : isFree m a ≠ 0 ∧ needed ≤ size m a := (suits_iff hsg.1).mpr ⟨rfl, hn⟩
    rw [List.nil_append, places, List.find?_cons_of_pos (by simpa using hs)]
    rfl
  | cons b xs ih =>
    obtain ⟨hh, ht⟩ := hsg
    have hnt : ¬ (isFree m a ≠ 0 ∧ needed ≤ size m a) :=
      fun hs => hb b List.mem_cons_self ((suits_iff hh).mp hs)
    rw [List.cons_append, places, List.find?_cons_of_neg (by simpa using hnt),
      ih ht fun c hc => hb c (List.mem_cons_of_mem _ hc), span_cons]
    congr 1
    omega

end

section
variable {h h' : Heap} {live : Nat → Option Nat} {p : Nat}

theorem kmalloc_first_fit (hl : Live h live) {ak : UInt64} (hcl : kmalloc h ak = some (h', p))
    (hp : p ≠ 0) : ∃ b, firstFit h (align16 (ak + 8)) = some b ∧ p = b + 40 ∧
      p < 2 ^ 64 ∧ (8 ∣ h.heap_first → 8 ∣ b) := by
  obtain ⟨bs, hh, -⟩ := hl
  by_cases hz : ak = 0
  · grind [kmalloc]
  rcases hh.listed.kmalloc_cases hz with ⟨-, heq⟩ | ⟨-, -, heq⟩ | ⟨-, -, -, heq⟩ |
    ⟨-, -, xs, n, ys, rfl, hb, hn, heq⟩
  · grind
  · grind
  · grind
  · rw [heq] at hcl
    cases hcl
    refine ⟨h.heap_first + span xs, ?_, rfl, ?_, ?_⟩
    · unfold firstFit
      rw [hh.reached, Option.bind_some]
      exact find_places hh.seg hb hn
    · have hr := hh.room
      have hw := hh.whole
      grind [span_append, span_cons]
    · intro hf
      exact Nat.dvd_add hf (span_words fun c hc => hh.words c (by simp [hc]))

theorem kcalloc_first_fit (hl : Live h live) {ak : UInt64} (hc : kcalloc h 1 ak = some (h', p))
    (hp : p ≠ 0) : ∃ b, firstFit h (align16 (ak + 8)) = some b ∧ p = b + 40 ∧
      p < 2 ^ 64 ∧ (8 ∣ h.heap_first → 8 ∣ b) := by
  unfold kcalloc at hc
  split at hc
  · cases hc
    exact absurd rfl hp
  split at hc
  · cases hc
    exact absurd rfl hp
  dsimp only at hc
  rw [UInt64.one_mul] at hc
  grind [kmalloc_first_fit]

end

end mvh.heap

namespace mvh.module

open heap

/-! ## The law of alignment -/

def heapAnswer (h : Heap) (size : UInt64) : Option UInt64 :=
  match heap.kcalloc h 1 size with
  | none => none
  | some (_, address) => if address = 0 then none else some (UInt64.ofNat address)

/-- Every section with `SHF_ALLOC` is at a multiple of its alignment. -/
def Aligned (image : Image) (loader : Loader) : Prop :=
  ∀ index < image.section_count.toNat, (image.sectionOf index).allocated = true →
    (image.sectionOf index).alignmentOf.toNat ∣ (loader.section_addresses index).toNat

def FitsAlignments (image : Image) (block : Nat) : Prop :=
  ∀ index < image.section_count.toNat, (image.sectionOf index).allocated = true →
    (image.sectionOf index).alignmentOf.toNat ∣ block + 40

theorem heapAnswer_some {h : Heap} {live : Nat → Option Nat} (hl : Live h live) {s allocation : UInt64}
    (ha : heapAnswer h s = some allocation) :
    ∃ b, firstFit h (align16 (s + 8)) = some b ∧ allocation.toNat = b + 40 ∧
      (8 ∣ h.heap_first → 8 ∣ b) := by
  unfold heapAnswer at ha
  grind [Option.some.inj, kcalloc_first_fit]

theorem aligned_iff {image : Image} {pl : Plan} (hp : elf_plan image = some pl) (e : List Export)
    {allocation : UInt64} {block : Nat} (hb : allocation.toNat = block + 40) (mm : Mem) :
    Aligned image (elf_fill image e pl allocation mm).1 ↔ FitsAlignments image block := by
  have hs : ∀ index < image.section_count.toNat, (image.sectionOf index).allocated = true →
      ((image.sectionOf index).alignmentOf.toNat ∣
        ((elf_fill image e pl allocation mm).1.section_addresses index).toNat ↔
        (image.sectionOf index).alignmentOf.toNat ∣ block + 40) := by
    intro index hi ha
    obtain ⟨hal, ho⟩ := layout_loop_aligned (elf_plan_some hp).2 hi ha
    rw [elf_fill_address hi ha, hal.dvd_add_iff ho, hb]
  constructor
  · intro h index hi ha
    exact (hs index hi ha).mp (h index hi ha)
  · intro h index hi ha
    exact (hs index hi ha).mpr (h index hi ha)

/-- In every reachable state of the heap the sections of an image that is accepted are aligned exactly
when the lowest free block that is large enough lies right for them. With alignments of at most 8 they
always are. -/
theorem sections_are_aligned_iff (h h0 : Heap) (pages : Option Pages) (unmap map : Nat → Int)
    (events : List heap.Event) (w : World) (hinit : heap_init h pages unmap map = (h0, 0))
    (hpage : 4096 ∣ h0.heap_first) (hallowed : Each step Allowed (some ⟨h0, fun _ => none⟩) events)
    (hrun : run step (some ⟨h0, fun _ => none⟩) events = some w) (results : Nat → Int) (r r' : Registry)
    (image : Image) (exports : List Export) (memory : Mem) (loaded_name : Name)
    (hload : module_elf_load results r image exports (heapAnswer w.state) memory = some (r', 0, loaded_name)) :
    ∃ plan allocation, elf_plan image = some plan ∧
      heapAnswer w.state plan.layout.allocation_size = some allocation ∧
      (Aligned image (elf_fill image exports plan allocation memory).1 ↔
        ∃ block, firstFit w.state (align16 (plan.layout.allocation_size + 8)) = some block ∧
          FitsAlignments image block) ∧
      ((∀ index < image.section_count.toNat, (image.sectionOf index).allocated = true →
          (image.sectionOf index).alignmentOf ≤ 8) →
        Aligned image (elf_fill image exports plan allocation memory).1) := by
  obtain ⟨plan, allocation, hplan, hanswer, -⟩ := module_elf_load_zero hload
  obtain ⟨hlive, hfirst⟩ := heap_run_live hinit hallowed hrun
  obtain ⟨block, hfit, hblock, hword⟩ := heapAnswer_some hlive hanswer
  have haligned := aligned_iff hplan exports hblock memory
  refine ⟨plan, allocation, hplan, hanswer, ?_, ?_⟩
  · rw [haligned]
    constructor
    · exact fun hfits => ⟨block, hfit, hfits⟩
    · rintro ⟨block', hfit', hfits⟩
      obtain rfl := Option.some.inj (hfit.symm.trans hfit')
      exact hfits
  · intro hsmall
    rw [haligned]
    intro index hindex hallocated
    obtain ⟨⟨k, -, hpower⟩, -⟩ := layout_loop_aligned (elf_plan_some hplan).2 hindex hallocated
    have hle : 2 ^ k ≤ 2 ^ 3 := by
      rw [← hpower]
      exact UInt64.le_iff_toNat_le.mp (hsmall index hindex hallocated)
    have hk : k ≤ 3 := (Nat.pow_le_pow_iff_right (by omega)).mp hle
    have h8 : 8 ∣ block + 40 := by
      have := hword (by rw [hfirst]; omega)
      omega
    rw [hpower]
    exact (Nat.pow_dvd_pow 2 hk).trans h8

def emptyWorld : World := ⟨sampleHeap, fun _ => none⟩

/-- An image with alignment 8 in the empty heap. -/
theorem a_small_module_is_aligned :
    ∃ plan allocation, elf_plan (moduleImage 1 8) = some plan ∧
      heapAnswer emptyWorld.state plan.layout.allocation_size = some allocation ∧
      Aligned (moduleImage 1 8) (elf_fill (moduleImage 1 8) [] plan allocation fun _ => 0).1 := by
  have hrun : (module_elf_load (fun _ => 0) module_init (moduleImage 1 8) [] (heapAnswer emptyWorld.state)
      (fun _ => 0)).map Prod.snd = some (0, some [65]) := by
    decide +kernel
  obtain ⟨⟨r', result⟩, hload, rfl⟩ := Option.map_eq_some_iff.mp hrun
  have hpage : 4096 ∣ sampleHeap.heap_first := ⟨256, by decide +kernel⟩
  obtain ⟨plan, allocation, hplan, hanswer, -, hsmall⟩ := sections_are_aligned_iff
    ⟨fun _ => 0, 0, 0, 0, 0, 0⟩ sampleHeap (some samplePages) (fun _ => 0) (fun _ => 0) []
    emptyWorld sample_init hpage trivial rfl (fun _ => 0) module_init r'
    (moduleImage 1 8) [] (fun _ => 0) (some [65]) hload
  refine ⟨plan, allocation, hplan, hanswer, hsmall ?_⟩
  have hall : (List.range (moduleImage 1 8).section_count.toNat).all (fun index =>
      decide (((moduleImage 1 8).sectionOf index).alignmentOf ≤ 8)) = true := by
    decide +kernel
  intro index hindex _
  exact of_decide_eq_true (List.all_eq_true.mp hall index (List.mem_range.mpr hindex))

/-- In the empty heap a section with alignment 16 is loaded at 0x100028. -/
theorem a_section_is_not_aligned :
    ∃ r' plan allocation,
      module_elf_load (fun _ => 0) module_init (moduleImage 1 16) [] (heapAnswer sampleHeap) (fun _ => 0) =
        some (r', 0, some [65]) ∧
      elf_plan (moduleImage 1 16) = some plan ∧
      heapAnswer sampleHeap plan.layout.allocation_size = some allocation ∧
      ¬ Aligned (moduleImage 1 16) (elf_fill (moduleImage 1 16) [] plan allocation fun _ => 0).1 := by
  have hrun : (module_elf_load (fun _ => 0) module_init (moduleImage 1 16) [] (heapAnswer sampleHeap)
      (fun _ => 0)).map Prod.snd = some (0, some [65]) := by
    decide +kernel
  obtain ⟨⟨r', result⟩, hload, rfl⟩ := Option.map_eq_some_iff.mp hrun
  have haddress : (elf_plan (moduleImage 1 16)).bind (fun plan =>
      (heapAnswer sampleHeap plan.layout.allocation_size).map fun allocation =>
        (elf_fill (moduleImage 1 16) [] plan allocation fun _ => 0).1.section_addresses 1) =
      some 0x100028 := by
    decide +kernel
  obtain ⟨plan, hplan, hanswer⟩ := Option.bind_eq_some_iff.mp haddress
  obtain ⟨allocation, hallocation, hat⟩ := Option.map_eq_some_iff.mp hanswer
  refine ⟨r', plan, allocation, hload, hplan, hallocation, fun haligned => ?_⟩
  have hdvd := haligned 1 (by decide +kernel) (by decide +kernel)
  rw [hat] at hdvd
  exact absurd hdvd (by decide +kernel)

end mvh.module
