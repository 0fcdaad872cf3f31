-- Who owns the images that `module_elf_load` allocates.
import MvhKernel.ElfBounds
import MvhKernel.ModuleRuns
import MvhKernel.Runs

open flat_memory (Mem)
open loops keyed_list runs

namespace mvh.module

/-! ## What a load leaves alone -/

/-- The part of a slot that only its registration writes. -/
structure Shape where
  descriptor : Descriptor
  image : UInt64
  image_size : UInt64
  owned : Bool

def Shape.name (shape : Shape) : Name := shape.descriptor.name

def Slot.shape (slot : Slot) : Shape := ⟨slot.descriptor, slot.image, slot.image_size, slot.owned⟩

def shapes (r : Registry) : List Shape := r.modules.map Slot.shape

/-- The slots keep their places and their shapes, and the heap is as it was. -/
structure Keeps (r r' : Registry) : Prop where
  shapes : shapes r' = shapes r
  heap : r'.heap = r.heap

section
variable {r r' r'' : Registry}

theorem Keeps.refl (r : Registry) : Keeps r r := ⟨rfl, rfl⟩

theorem Keeps.trans (h1 : Keeps r r') (h2 : Keeps r' r'') : Keeps r r'' :=
  ⟨h2.shapes.trans h1.shapes, h2.heap.trans h1.heap⟩

theorem Keeps.update (r : Registry) (p : Nat) {f : Slot → Slot}
    (hf : ∀ s, (f s).shape = s.shape) : Keeps r (r.update p f) :=
  ⟨map_modify fun s _ => hf s, rfl⟩

theorem Keeps.length (h : Keeps r r') : r'.modules.length = r.modules.length := by
  have hl := congrArg List.length h.shapes
  simpa [module.shapes] using hl

theorem keeps_acquire (r : Registry) (name : Name) : Keeps r (module_acquire r name).1 := by
  rcases module_acquire_cases r name with heq | ⟨p, _, _, _, _, _, heq⟩
  · rw [heq]
    exact .refl r
  · rw [heq]
    exact .update r p fun _ => rfl

theorem keeps_release (r : Registry) (name : Name) : Keeps r (module_release r name) := by
  unfold module_release
  split
  · exact .refl r
  · apply Keeps.update
    intro s
    split <;> rfl

theorem keeps_releaseAll (r : Registry) (n : List Name) : Keeps r (releaseAll r n) := by
  induction n generalizing r with
  | nil => exact .refl r
  | cons name n ih => exact (keeps_release r name).trans (ih _)

theorem keeps_load_dependencies {load : Registry → Name → Registry × Int}
    (hl : ∀ r name, Keeps r (load r name).1) (r : Registry) (n a : List Name) :
    Keeps r (load_dependencies load r n a).1 := by
  induction n generalizing r a with
  | nil => exact .refl r
  | cons name n ih =>
    have hf := hl r name
    unfold load_dependencies
    split
    next r1 rs hr1 =>
    rw [hr1] at hf
    split
    · exact hf
    have hs := keeps_acquire r1 name
    split
    next r2 rs2 hr2 =>
    rw [hr2] at hs
    split
    · exact hf.trans hs
    · exact (hf.trans hs).trans (ih r2 _)

theorem keeps_call_init (rs : Nat → Int) (r : Registry) (d : Descriptor) :
    Keeps r (call_init rs r d).1 := by
  unfold call_init
  split
  · exact .refl r
  · exact ⟨rfl, rfl⟩

theorem load_at_spec (rs : Nat → Int) (d : Nat) (r : Registry) (name : Name) :
    Keeps r (load_at rs d r name).1 ∧
      ((load_at rs d r name).2 = 0 → ∃ p s, find_slot r name = some p ∧
        (load_at rs d r name).1.modules[p]? = some s ∧ s.state = .LIVE) := by
  induction d generalizing r name with
  | zero => exact ⟨.refl r, fun hz => absurd hz (by simp [load_at])⟩
  | succ d ih =>
    unfold load_at
    split
    · exact ⟨.refl r, fun hz => absurd hz (by simp)⟩
    next ha =>
      obtain ⟨p, s, hf, hs, -, hlv⟩ := load_begin_live ha
      exact ⟨.refl r, fun _ => ⟨p, s, hf, hs, hlv⟩⟩
    next p ds r1 hb =>
    obtain ⟨s, hs, -, -, rfl, rfl⟩ := load_begin_begun hb
    have hm : Keeps r (r.setState p .LOADING) := .update r p fun _ => rfl
    have hl := hm.trans (keeps_load_dependencies (fun r name => (ih r name).1)
      (r.setState p .LOADING) s.descriptor.dependencyNames [])
    split
    next r2 a rl2 hr2 =>
    rw [hr2] at hl
    split
    next r3 rl hr3 =>
    have hi : Keeps r r3 := by
      have hc := keeps_call_init rs r2 s.descriptor
      split at hr3
      · rw [hr3] at hc
        exact hl.trans hc
      grind
    have hk : Keeps r (if rl ≠ 0 then releaseAll r3 a else r3) := by
      split
      · exact hi.trans (keeps_releaseAll r3 a)
      · exact hi
    generalize (if rl ≠ 0 then releaseAll r3 a else r3) = r4 at hk
    refine ⟨hk.trans (.update r4 p fun _ => rfl), fun hz => ?_⟩
    -- The s is still at its place, and the last section marks it.
    have hlt : p < r4.modules.length := by
      rw [hk.length]
      exact (List.getElem?_eq_some_iff.mp hs).1
    refine ⟨p, _, load_begin_place hb,
      getElem?_update_self (List.getElem?_eq_getElem hlt), ?_⟩
    exact if_pos hz

end

/-! ## Slots that come and go -/

theorem find_slot_shapes (r : Registry) (name : Name) :
    find_slot r name = place Shape.name (shapes r) name := by
  unfold find_slot place shapes
  rw [List.findIdx?_map]
  rfl

theorem place_append_new {s : List Shape} (shape : Shape)
    (hn : place Shape.name s shape.name = none) :
    place Shape.name (s ++ [shape]) shape.name = some s.length := by
  unfold place at hn ⊢
  rw [List.findIdx?_append, hn]
  simp

theorem register_descriptor_cases (r : Registry) (ds : Option Descriptor)
    (im i : UInt64) (o l : Bool) :
    register_descriptor r ds im i o l = (r, -1) ∨
      ∃ d s, ds = some d ∧ s.shape = ⟨d, im, i, o⟩ ∧
        find_slot r d.name = none ∧
        register_descriptor r ds im i o l =
          ({ r with modules := r.modules ++ [s] }, 0) := by
  unfold register_descriptor
  cases ds with
  | none => exact Or.inl rfl
  | some d =>
    dsimp only
    split
    · exact Or.inl rfl
    split
    · exact Or.inl rfl
    next hr =>
      rw [not_or, not_not] at hr
      exact Or.inr ⟨d, _, rfl, rfl, hr.1, rfl⟩

theorem elf_remove_new {r r' : Registry} (shape : Shape) (hn : find_slot r shape.name = none)
    (h : shapes r' = shapes r ++ [shape]) :
    shapes (elf_remove r' shape.name) = shapes r ∧ (elf_remove r' shape.name).heap = r'.heap := by
  have hf : find_slot r' shape.name = some (shapes r).length := by
    grind [find_slot_shapes, place_append_new]
  unfold elf_remove
  rw [hf]
  refine ⟨?_, rfl⟩
  show (r'.modules.eraseIdx (shapes r).length).map Slot.shape = shapes r
  rw [← List.eraseIdx_map]
  show (shapes r').eraseIdx (shapes r).length = shapes r
  simp [h, List.eraseIdx_append_of_length_le]

/-- What a load of an image leaves behind when it has failed, and when it has not. -/
inductive ImageLoad (r : Registry) (kcalloc : UInt64 → Option UInt64) : Registry × Int × Name → Prop
  | failed {r' : Registry} (hkeeps : Keeps r r') : ImageLoad r kcalloc (r', -1, none)
  | loaded {r' : Registry} {descriptor : Descriptor} {allocation size : UInt64} {slot : Slot}
      (hnew : find_slot r descriptor.name = none) (hallocation : kcalloc size = some allocation)
      (hshapes : shapes r' = shapes r ++ [⟨descriptor, allocation, size, true⟩])
      (hheap : r'.heap = allocation :: r.heap) (hslot : r'.modules[r.modules.length]? = some slot)
      (hlive : slot.state = .LIVE) : ImageLoad r kcalloc (r', 0, descriptor.name)

theorem elf_register_spec (rs : Nat → Int) (r : Registry) (ds : Descriptor)
    {kcalloc : UInt64 → Option UInt64} {allocation s : UInt64}
    (ha : kcalloc s = some allocation) :
    ImageLoad r kcalloc
      (elf_register rs { r with heap := allocation :: r.heap } ds allocation s) := by
  unfold elf_register
  rcases register_descriptor_cases { r with heap := allocation :: r.heap } (some ds) allocation
      s true false with hr | ⟨d, sl, hd, hs, hn, had⟩
  · simpa [hr, kfree_cons] using .failed (.refl r)
  · obtain rfl := Option.some.inj hd
    rw [had]
    dsimp only
    rw [if_neg (by decide)]
    have hn : find_slot r ds.name = none := hn
    generalize hr1 : ({ modules := r.modules ++ [sl], heap := allocation :: r.heap, inits := r.inits } :
      Registry) = r1
    have hs1 : shapes r1 = shapes r ++ [⟨ds, allocation, s, true⟩] := by
      rw [← hr1, ← hs]
      simp [shapes]
    have hh1 : r1.heap = allocation :: r.heap := by rw [← hr1]
    obtain ⟨hk, hl⟩ := load_at_spec rs (MODULE_LIMIT + 1) r1 ds.name
    change Keeps r1 (module_load rs r1 ds.name).1 at hk
    change (module_load rs r1 ds.name).2 = 0 → ∃ p sl, _ ∧
      (module_load rs r1 ds.name).1.modules[p]? = some sl ∧ _ at hl
    generalize module_load rs r1 ds.name = after at hk hl ⊢
    obtain ⟨r2, rl⟩ := after
    dsimp only at hk hl ⊢
    have hs2 := hk.shapes.trans hs1
    have hh2 := hk.heap.trans hh1
    split
    · obtain ⟨hrm, hh⟩ := elf_remove_new ⟨ds, allocation, s, true⟩ hn hs2
      refine .failed ⟨hrm, ?_⟩
      show (elf_remove r2 ds.name).heap.erase allocation = r.heap
      rw [show (elf_remove r2 ds.name).heap = r2.heap from hh, hh2, List.erase_cons_head]
    next hz =>
      obtain ⟨p, s2, hf, hsl, hst⟩ := hl (not_not.mp hz)
      have hp : p = r.modules.length := by
        rw [find_slot_shapes, hs1] at hf
        have hls := place_append_new ⟨ds, allocation, s, true⟩
          ((find_slot_shapes r ds.name).symm.trans hn)
        have hsm := Option.some.inj (hf.symm.trans hls)
        simpa [shapes] using hsm
      subst hp
      exact .loaded hn ha hs2 hh2 hsl hst

theorem module_elf_load_spec (rs : Nat → Int) (r : Registry) (i : Image)
    (e : List Export) (kcalloc : UInt64 → Option UInt64) (m : Mem)
    {after : Registry × Int × Name}
    (h : module_elf_load rs r i e kcalloc m = some after) :
    ImageLoad r kcalloc after := by
  rcases module_elf_load_cases h with rfl | ⟨d, allocation, s, ha, rfl⟩
  · exact .failed (.refl r)
  · exact elf_register_spec rs r d ha

/-! ## One call -/

/-- What a call does to the shapes and the heap, with the name of the slot it removes. -/
inductive Change (r r' : Registry) : Option Name → Prop
  | kept (h : Keeps r r') : Change r r' none
  | added (shape : Shape) (hnew : find_slot r shape.name = none) (hfree : shape.owned = false)
      (hshapes : shapes r' = shapes r ++ [shape]) (hheap : r'.heap = r.heap) : Change r r' none
  | loaded (shape : Shape) (hnew : find_slot r shape.name = none) (howned : shape.owned = true)
      (hfresh : shape.image ∉ r.heap) (hshapes : shapes r' = shapes r ++ [shape])
      (hheap : r'.heap = shape.image :: r.heap) : Change r r' none
  | removed (front back : List Shape) (shape : Shape) (hshapes : shapes r = front ++ shape :: back)
      (hshapes' : shapes r' = front ++ back)
      (hheap : r'.heap = if shape.owned then r.heap.erase shape.image else r.heap) :
      Change r r' (some shape.name)

section
variable {r r' : Registry} {name : Name}

theorem register_change (r : Registry) (ds : Option Descriptor) (im i : UInt64)
    (l : Bool) : Change r (register_descriptor r ds im i false l).1 none := by
  rcases register_descriptor_cases r ds im i false l with
    hr | ⟨d, slot, -, hs, hn, ha⟩
  · rw [hr]
    exact .kept (.refl r)
  · rw [ha]
    refine .added ⟨d, im, i, false⟩ hn rfl ?_ rfl
    rw [← hs]
    simp [shapes]

theorem module_unload_cases {rs : Int} (h : module_unload r name = some (r', rs)) :
    (rs = -1 ∧ r' = r) ∨ (rs = 0 ∧ Change r r' (some name)) := by
  unfold module_unload at h
  split at h
  · cases h
    exact Or.inl ⟨rfl, rfl⟩
  next position s r1 hb =>
  obtain ⟨hs, rfl, -, -, rfl⟩ := unload_begin_some hb
  have hm : Keeps r (r.setState position .UNLOADING) := .update r position fun _ => rfl
  have hk := hm.trans (keeps_releaseAll _ s.descriptor.dependencyNames)
  generalize releaseAll (r.setState position .UNLOADING) s.descriptor.dependencyNames = r2 at h hk
  obtain ⟨hlt, hg⟩ := List.getElem?_eq_some_iff.mp hs
  have hl2 : position < r2.modules.length := by rwa [hk.length]
  unfold remove_at at h
  rw [if_neg (List.ne_nil_of_length_pos (by omega)), if_pos hl2] at h
  cases h
  right
  refine ⟨rfl, .removed ((shapes r).take position) ((shapes r).drop (position + 1)) s.shape ?_ ?_ ?_⟩
  · have hsh : (shapes r)[position]? = some s.shape := by
      simp [List.getElem?_map, hs, shapes]
    grind [List.getElem_cons_drop, List.take_append_drop, List.getElem?_eq_some_iff.mp]
  · have he : shapes (if s.owned then kfree { r2 with modules := r2.modules.eraseIdx position }
        s.image else { r2 with modules := r2.modules.eraseIdx position }) =
        (shapes r2).eraseIdx position := by
      unfold shapes
      split <;> exact (List.eraseIdx_map _ _ _).symm
    rw [he, hk.shapes, List.eraseIdx_eq_take_drop_succ]
  · rw [← hk.heap]
    show _ = if s.owned then _ else _
    split <;> rfl

def FreshHeap (r : Registry) : Op → Prop
  | .elf_load _ _ kcalloc _ => ∀ size allocation, kcalloc size = some allocation → allocation ∉ r.heap
  | _ => True

theorem step_change {s s' : System} {rs : Nat → Int} {op : Op} (hf : FreshHeap s.registry op)
    (h : s.step rs op = some s') :
    Change s.registry s'.registry none ∨ ∃ name, op = .unload name ∧
      module_unload s.registry name = some (s'.registry, 0) ∧ Change s.registry s'.registry (some name) := by
  cases op with
  | register d =>
    cases h
    exact Or.inl (register_change s.registry d 0 0 false)
  | register_builtin d =>
    cases h
    left
    show Change s.registry (module_register_builtin s.registry d).1 none
    unfold module_register_builtin
    split
    · exact .kept (.refl _)
    split
    · exact .kept (.refl _)
    · exact register_change s.registry _ 0 0 true
  | load name =>
    cases h
    exact Or.inl (.kept (load_at_spec rs _ s.registry name).1)
  | unload name =>
    obtain ⟨⟨r', rl⟩, hu, rfl⟩ := Option.map_eq_some_iff.mp h
    rcases module_unload_cases hu with ⟨-, rfl⟩ | ⟨rfl, hc⟩
    · exact Or.inl (.kept (.refl _))
    · exact Or.inr ⟨name, rfl, hu, hc⟩
  | acquire name =>
    have hk := keeps_acquire s.registry name
    unfold System.step at h
    dsimp only at h
    cases h
    exact Or.inl (.kept hk)
  | release name =>
    cases h
    exact Or.inl (.kept (keeps_release s.registry name))
  | elf_load i e kcalloc m =>
    obtain ⟨after, hl, rfl⟩ := Option.map_eq_some_iff.mp h
    left
    cases module_elf_load_spec rs s.registry i e kcalloc m hl with
    | failed hk => exact .kept hk
    | loaded hn ha hs hh _ _ =>
      exact .loaded ⟨_, _, _, true⟩ hn rfl (hf _ _ ha) hs hh

end

/-! ## Images over whole runs -/

def images (shapes : List Shape) : List UInt64 := (shapes.filter Shape.owned).map Shape.image

/-- An allocation is live once, and every slot with an image of its own has a live one. -/
structure Stocked (r : Registry) : Prop where
  once : r.heap.Nodup
  apart : (images (shapes r)).Nodup
  live : ∀ image ∈ images (shapes r), image ∈ r.heap

/-- There is a module of the name, and it owns the allocation. -/
structure Owns (r : Registry) (name : Name) (allocation : UInt64) : Prop where
  there : ∃ shape ∈ shapes r, shape.name = name
  owned : ∀ shape ∈ shapes r, shape.name = name → shape.owned = true ∧ shape.image = allocation

@[simp] theorem images_append (xs ys : List Shape) : images (xs ++ ys) = images xs ++ images ys := by
  simp [images]

@[simp] theorem images_cons (shape : Shape) (shapes : List Shape) :
    images (shape :: shapes) = if shape.owned then shape.image :: images shapes else images shapes := by
  unfold images
  rw [List.filter_cons]
  split <;> simp

@[simp] theorem images_nil : images [] = [] := rfl

theorem mem_images {shapes : List Shape} {shape : Shape} (h : shape ∈ shapes)
    (ho : shape.owned = true) : shape.image ∈ images shapes :=
  List.mem_map_of_mem (List.mem_filter.mpr ⟨h, ho⟩)

section
variable {r r' : Registry} {name : Name} {allocation : UInt64} {gone : Option Name}

theorem Stocked.change (h : Stocked r) (hc : Change r r' gone) : Stocked r' := by
  obtain ⟨hon, ha, hl⟩ := h
  cases hc with
  | kept hk =>
    refine ⟨?_, ?_, ?_⟩
    · rwa [hk.heap]
    · rwa [hk.shapes]
    · rwa [hk.heap, hk.shapes]
  | added shape hn hf hs hh =>
    have hi : images (shapes r') = images (shapes r) := by
      rw [hs]
      simp [hf]
    refine ⟨?_, ?_, ?_⟩
    · rwa [hh]
    · rwa [hi]
    · rwa [hh, hi]
  | loaded shape hn ho hfr hs hh =>
    have hi : images (shapes r') = images (shapes r) ++ [shape.image] := by
      rw [hs]
      simp [ho]
    refine ⟨?_, ?_, ?_⟩
    · grind
    · grind
    grind
  | removed f back shape hs hs' hh =>
    rw [hs] at ha hl
    by_cases ho : shape.owned = true
    · simp only [images_append, images_cons, ho, if_true] at ha hl
      rw [if_pos ho] at hh
      obtain ⟨hot, hr⟩ := List.nodup_middle.mp ha |> List.nodup_cons.mp
      refine ⟨?_, ?_, ?_⟩
      · rw [hh]
        exact hon.erase _
      · rwa [hs', images_append]
      grind [images_append, List.mem_append_left, List.mem_append_right]
    · simp only [images_append, images_cons, if_neg ho] at ha hl
      rw [if_neg ho] at hh
      refine ⟨?_, ?_, ?_⟩
      · rwa [hh]
      · rwa [hs', images_append]
      · rwa [hh, hs', images_append]

theorem Owns.change (h : Owns r name allocation) (hc : Change r r' gone)
    (ho : gone ≠ some name) : Owns r' name allocation := by
  obtain ⟨⟨t, ht, hn⟩, how⟩ := h
  have ha : ∀ shape : Shape, find_slot r shape.name = none → shapes r' = shapes r ++ [shape] →
      Owns r' name allocation := by
    intro shape hnw hs
    refine ⟨⟨t, ?_, hn⟩, ?_⟩
    · grind
    · intro o hm ho
      rw [hs] at hm
      rcases List.mem_append.mp hm with hm | hm
      · exact how o hm ho
      · -- A name that stands in the table is not new.
        obtain rfl := List.mem_singleton.mp hm
        rw [find_slot_shapes] at hnw
        exact absurd (hn.trans ho.symm) (place_eq_none_iff.mp hnw t ht)
  cases hc with
  | kept hk => exact ⟨⟨t, hk.shapes ▸ ht, hn⟩, hk.shapes ▸ how⟩
  | added shape hnw _ hs _ => exact ha shape hnw hs
  | loaded shape hnw _ _ hs _ => exact ha shape hnw hs
  | removed f back shape hs hs' hh =>
    have hm : ∀ o, o ∈ shapes r' → o ∈ shapes r := by grind
    refine ⟨⟨t, ?_, hn⟩, fun o ho => how o (hm o ho)⟩
    grind

theorem Owns.freed (h : Owns r name allocation) (hs : Stocked r)
    (hc : Change r r' (some name)) :
    allocation ∈ r.heap ∧ r'.heap = r.heap.erase allocation ∧ allocation ∉ r'.heap := by
  generalize hg : some name = gone at hc
  cases hc with
  | kept => cases hg
  | added => cases hg
  | loaded => cases hg
  | removed f back shape hsh hs' hh =>
    have hm : shape ∈ shapes r := by simp [hsh]
    obtain ⟨ho, rfl⟩ := h.owned shape hm (Option.some.inj hg).symm
    rw [if_pos ho] at hh
    refine ⟨hs.live _ (mem_images hm ho), hh, ?_⟩
    simp [hh, hs.once.mem_erase_iff]

end

def laterStep (results : Nat → Int) (s : Option System) (op : Op) : Option System :=
  s.bind fun s => s.step results op

def Fair (s : Option System) (op : Op) : Prop := ∀ system, s = some system → FreshHeap system.registry op

def Spares (name : Name) (s : Option System) (op : Op) : Prop :=
  ∀ system, s = some system → op = .unload name → ∀ r, module_unload system.registry name ≠ some (r, 0)

theorem stocked_step {rs : Nat → Int} (s : Option System) (op : Op)
    (h : ∀ system, s = some system → Stocked system.registry) (hf : Fair s op) :
    ∀ system, laterStep rs s op = some system → Stocked system.registry := by
  intro s' hs'
  obtain ⟨s, rfl, hs⟩ := Option.bind_eq_some_iff.mp hs'
  rcases step_change (hf s rfl) hs with hc | ⟨name, -, -, hc⟩
  · exact (h s rfl).change hc
  · exact (h s rfl).change hc

theorem the_images_are_live (rs : Nat → Int) (hl : Name → Nat) (ops : List Op)
    (hf : Each (laterStep rs) Fair (some ⟨module_init, hl⟩) ops) :
    Always (laterStep rs) (fun s => ∀ system, s = some system → Stocked system.registry)
      (some ⟨module_init, hl⟩) ops := by
  refine always_of_each stocked_step (fun _ h => h) ?_ hf
  intro system hs
  obtain rfl := Option.some.inj hs
  exact ⟨List.nodup_nil, List.nodup_nil, nofun⟩

def descriptors (r : Registry) : List Descriptor := r.modules.map Slot.descriptor

abbrev Fields := List (Nat × Nat)

def packed : Fields → Nat
  | [] => 0
  | (width, value) :: rest => value + 256 ^ width * packed rest

def packedImage (fields : Fields) : Image :=
  ⟨fun i => UInt8.ofNat (packed fields / 256 ^ i), UInt64.ofNat (fields.map Prod.fst).sum⟩

def headerFields (section_count : Nat) : Fields :=
  [(4, 0x464C457F), (1, 2), (1, 1), (1, 1), (9, 0), (2, 1), (2, 62), (4, 1), (8, 0), (8, 0), (8, 64),
    (4, 0), (2, 64), (2, 0), (2, 0), (2, 64), (2, section_count), (2, 0)]

def sectionFields (type flags offset size link info alignment entry_size : Nat) : Fields :=
  [(4, 0), (4, type), (8, flags), (8, 0), (8, offset), (8, size), (4, link), (4, info), (8, alignment),
    (8, entry_size)]

def symbolFields (name section_index value : Nat) : Fields :=
  [(4, name), (2, 0), (2, section_index), (8, value), (8, 0)]

def relaFields (offset symbol type addend : Nat) : Fields :=
  [(8, offset), (4, type), (4, symbol), (8, addend)]

def textFields (text : Text) : Fields := text.map fun c => (1, c.toNat)

/-- A descriptor without callbacks, the name 65 and the version 49. -/
def descriptorFields : Fields := [(4, 56), (4, 2), (48, 0), (2, 65), (2, 49), (12, 0)]

/-- Section 1 has the descriptor of module 65. -/
def moduleImage (section_index alignment : Nat) : Image :=
  packedImage (headerFields 5 ++ sectionFields 0 0 0 0 0 0 0 0 ++
    sectionFields 1 2 384 72 0 0 alignment 0 ++ sectionFields 2 0 456 48 3 0 8 24 ++
    sectionFields 3 0 504 22 0 0 1 0 ++ sectionFields 4 0 526 72 2 1 8 24 ++ descriptorFields ++
    symbolFields 0 1 0 ++ symbolFields 0 section_index 0 ++ textFields (descriptorSymbol ++ [0]) ++
    relaFields 8 0 1 56 ++ relaFields 16 0 1 58 ++ relaFields 64 1 1 0)

end mvh.module
