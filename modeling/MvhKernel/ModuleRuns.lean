-- Runs of the module calls, one after the other.
import MvhKernel.ModuleLoads

open flat_memory keyed_list

namespace mvh.module

/-! ## Slots that come and go -/

section
variable {r : Registry} {held : Name → Nat} {slot : Slot}

theorem Counted.append (h : Counted r held) (hsz : r.modules.length < MODULE_LIMIT)
    (hnw : find_slot r slot.name = none) (hr : slot.references = 0)
    (hf : slot.state = .LIVE → slot.descriptor.dependencyNames = []) :
    Counted { r with modules := r.modules ++ [slot] } held := by
  have ho : ∀ o ∈ r.modules, o.name ≠ slot.name := place_eq_none_iff.mp hnw
  have hu : ¬ IsLive r slot.name := by
    rintro ⟨o, hm, hnm, _⟩
    exact ho o hm hnm
  have hl {name : Name} (hn : IsLive r name) : IsLive { r with modules := r.modules ++ [slot] } name := by
    obtain ⟨o, hm, hnm, hs⟩ := hn
    exact ⟨o, List.mem_append_left _ hm, hnm, hs⟩
  have hue (name : Name) : slot.uses name = 0 := by grind [Slot.uses]
  have hus (name : Name) : uses { r with modules := r.modules ++ [slot] } name = uses r name := by
    simp [uses, hue]
  have hd {a b : Name} (hab : DependsOn { r with modules := r.modules ++ [slot] } a b) : DependsOn r a b := by
    obtain ⟨o, hm, hnm, hs, hb⟩ := hab
    rcases List.mem_append.mp hm with hm | hm
    · exact ⟨o, hm, hnm, hs, hb⟩
    grind
  constructor
  · grind
  · exact h.unique.append ho
  · exact fun a b hab => hl (h.live a b (hd hab))
  · intro o hm
    rw [hus]
    rcases List.mem_append.mp hm with hm | hm
    · exact h.references o hm
    · obtain rfl := List.mem_singleton.mp hm
      -- Nobody holds a name that is not in the table, and nobody live depends on it.
      have hh : held o.name = 0 := by
        by_contra hne
        exact hu (h.held _ (Nat.pos_of_ne_zero hne))
      have hnn : uses r o.name = 0 := by
        by_contra hne
        obtain ⟨u, hm, hp⟩ : ∃ u ∈ r.modules, u.uses o.name ≠ 0 := by
          by_contra ha
          refine hne (List.sum_eq_zero fun n hn => ?_)
          grind
        unfold Slot.uses at hp
        split at hp
        next hs =>
          have hb := List.count_pos_iff.mp (Nat.pos_of_ne_zero hp)
          exact hu (h.live u.name _ ⟨u, hm, rfl, hs, hb⟩)
        · exact hp rfl
      rw [hr, hh, hnn]
      rfl
  · exact fun name hnm => hl (h.held name hnm)
  · exact fun name hc => h.acyclic name (hc.lift id fun a b hab => hd hab)

theorem Counted.eraseIdx {p : Nat} (h : Counted r held) (hsl : r.modules[p]? = some slot)
    (hdd : slot.state ≠ .LIVE) : Counted { r with modules := r.modules.eraseIdx p } held := by
  have hm {o : Slot} : o ∈ r.modules.eraseIdx p ↔ o ∈ r.modules ∧ o.name ≠ slot.name :=
    h.unique.mem_eraseIdx hsl
  have hnt := not_isLive_of_state h.unique hsl hdd
  have hl {name : Name} (hn : IsLive r name) :
      IsLive { r with modules := r.modules.eraseIdx p } name := by
    have hne : name ≠ slot.name := by
      rintro rfl
      exact hnt hn
    obtain ⟨o, ho, rfl, hs⟩ := hn
    exact ⟨o, hm.mpr ⟨ho, hne⟩, rfl, hs⟩
  have hu (name : Name) : uses { r with modules := r.modules.eraseIdx p } name = uses r name := by
    have hsm := sum_eraseIdx (Slot.uses name) hsl
    have hz : slot.uses name = 0 := if_neg hdd
    rw [hz] at hsm
    exact hsm
  have hd {a b : Name} (hab : DependsOn { r with modules := r.modules.eraseIdx p } a b) :
      DependsOn r a b := by
    obtain ⟨o, ho, hnm, hs, hb⟩ := hab
    exact ⟨o, (hm.mp ho).1, hnm, hs, hb⟩
  constructor
  · exact Nat.le_trans (List.length_eraseIdx_le _ _) h.size
  · exact h.unique.eraseIdx
  · exact fun a b hab => hl (h.live a b (hd hab))
  · intro o ho
    rw [hu]
    exact h.references o (hm.mp ho).1
  · exact fun name hnm => hl (h.held name hnm)
  · exact fun name hc => h.acyclic name (hc.lift id fun a b hab => hd hab)

end

/-! ## The calls -/

section
variable {r : Registry} {held : Name → Nat}

theorem Counted.register_descriptor (h : Counted r held) (ds : Option Descriptor)
    (im i : UInt64) (o l : Bool)
    (hf : ∀ d, ds = some d → l = true → d.dependencyNames = []) :
    Counted (register_descriptor r ds im i o l).1 held := by
  unfold module.register_descriptor
  split
  · exact h
  next d =>
  split
  · exact h
  split
  · exact h
  next hr =>
  rw [not_or, not_not] at hr
  have hsz := h.size
  refine Counted.append h (by omega) ?_ rfl ?_
  · exact hr.1
  · intro hs
    apply hf d rfl
    grind

theorem unload_begin_some {n : Name} {p : Nat} {slot : Slot} {r' : Registry}
    (h : unload_begin r n = some (p, slot, r')) :
    r.modules[p]? = some slot ∧ slot.name = n ∧ slot.state = .LIVE ∧ slot.references = 0 ∧
      r' = r.setState p .UNLOADING := by
  unfold unload_begin at h
  split at h
  · cases h
  next place hf =>
  obtain ⟨s', hs', hn⟩ := find_slot_some hf
  rw [hs'] at h
  dsimp only at h
  split at h
  · cases h
  next hc =>
  rw [not_or, not_or, not_not, not_not] at hc
  cases h
  exact ⟨hs', hn, hc.1, hc.2.1, rfl⟩

theorem Counted.module_unload (h : Counted r held) (name : Name) :
    ∃ r' rs, module_unload r name = some (r', rs) ∧ Counted r' held ∧
      (rs = 0 → ∀ a, ¬ DependsOn r a name) := by
  unfold module.module_unload
  split
  · grind
  next p slot r1 hb =>
  obtain ⟨hs, hn, hst, hf, rfl⟩ := unload_begin_some hb
  have hu (a : Name) : ¬ DependsOn r a name := by
    intro hab
    have hp := uses_pos hab
    have hcn := h.references slot (List.mem_of_getElem? hs)
    rw [hf, hn, UInt32.toNat_zero] at hcn
    omega
  have hd : Counted (r.setState p .UNLOADING) (hold held slot.descriptor.dependencyNames) :=
    h.setState_dying hs hst hf (by decide)
  have hc := hd.releaseAll
  have hm : (r.setState p .UNLOADING).modules[p]? = some { slot with state := .UNLOADING } :=
    getElem?_update_self hs
  obtain ⟨l, hl, _, hsm | ⟨hcl, _⟩⟩ :=
    (grows_releaseAll _ slot.descriptor.dependencyNames).slots p _ hm
  · have hdd : l.state ≠ .LIVE := by simp [hsm]
    have hlt := (List.getElem?_eq_some_iff.mp hl).1
    unfold remove_at
    rw [if_neg (List.ne_nil_of_length_pos (by omega)), if_pos hlt]
    refine ⟨_, 0, rfl, ?_, fun _ => hu⟩
    apply (hc.eraseIdx hl hdd).congr
    split <;> rfl
  · exact absurd rfl hcl.2.1

theorem Counted.module_load (h : Counted r held) (rs : Nat → Int) (n : Name) :
    Loaded r n held (module_load rs r n) :=
  load_at_counted rs _ r n held h

theorem Counted.elf_remove {n : Name} (h : Counted r held) (hd : ¬ IsLive r n) :
    Counted (elf_remove r n) held := by
  unfold module.elf_remove
  split
  · exact h
  next p hf =>
    obtain ⟨slot, hs, hn⟩ := find_slot_some hf
    refine h.eraseIdx hs fun hst => hd ?_
    exact ⟨slot, List.mem_of_getElem? hs, hn, hst⟩

theorem Counted.elf_register (h : Counted r held) (rs : Nat → Int) (d : Descriptor)
    (al a : UInt64) :
    Counted (elf_register rs r d al a).1 held := by
  have hr := h.register_descriptor (some d) al a true false
    (fun _ _ hlv => by cases hlv)
  have hd : (module.register_descriptor r (some d) al a true false).2 = 0 →
      ¬ IsLive (module.register_descriptor r (some d) al a true false).1
        d.name := by
    unfold module.register_descriptor
    dsimp only
    split
    · exact fun hz => absurd hz (by simp)
    split
    · exact fun hz => absurd hz (by simp)
    next hrm =>
    rw [not_or, not_not] at hrm
    rintro _ ⟨slot, hm, hn, hlv⟩
    rcases List.mem_append.mp hm with hm | hm
    · exact place_eq_none_iff.mp hrm.1 slot hm hn
    grind
  unfold module.elf_register
  split
  next r1 rl hr1 =>
  rw [hr1] at hr hd
  split
  · exact hr.congr rfl
  next hz =>
  have hl := hr.module_load rs d.name
  have hd := hd (not_not.mp hz)
  split
  next r2 rl2 hr2 =>
  rw [hr2] at hl
  split
  next hf => exact (hl.counted.elf_remove (hl.dead hf hd)).congr rfl
  · exact hl.counted

theorem kfree_cons (r : Registry) (a : UInt64) :
    kfree { r with heap := a :: r.heap } a = r := by
  simp [kfree]

theorem module_elf_load_cases {rs : Nat → Int} {i : Image} {e : List Export}
    {kcalloc : UInt64 → Option UInt64} {m : Mem} {after : Registry × Int × Name}
    (hl : module_elf_load rs r i e kcalloc m = some after) :
    after = (r, -1, none) ∨ ∃ d a size, kcalloc size = some a ∧
      after = elf_register rs { r with heap := a :: r.heap } d a size := by
  unfold module_elf_load at hl
  split at hl
  · exact Or.inl (Option.some.inj hl).symm
  split at hl
  · exact Or.inl (Option.some.inj hl).symm
  next a ha =>
  -- what fails from here on frees the a
  grind [kfree_cons]

theorem Counted.module_elf_load (h : Counted r held) (rs : Nat → Int) (i : Image) (e : List Export)
    (kcalloc : UInt64 → Option UInt64) (m : Mem) {after : Registry × Int × Name}
    (hl : module_elf_load rs r i e kcalloc m = some after) : Counted after.1 held := by
  rcases module_elf_load_cases hl with rfl | ⟨d, a, s, _, rfl⟩
  · exact h
  · have ha : Counted { r with heap := a :: r.heap } held := h.congr rfl
    exact ha.elf_register rs d a s

end

/-! ## Runs -/

/-- The table, and how often clients have acquired each module and not released it. -/
structure System where
  registry : Registry
  held : Name → Nat

inductive Op where
  | register (descriptor : Option Descriptor)
  | register_builtin (descriptor : Option Descriptor)
  | load (name : Name)
  | unload (name : Name)
  | acquire (name : Name)
  | release (name : Name)
  | elf_load (image : Image) (exports : List Export) (kcalloc : UInt64 → Option UInt64) (memory : Mem)

/-- One call from beginning to end. -/
def System.step (results : Nat → Int) (s : System) : Op → Option System
  | .register descriptor => some { s with registry := (module_register s.registry descriptor).1 }
  | .register_builtin descriptor => some { s with registry := (module_register_builtin s.registry descriptor).1 }
  | .load name => some { s with registry := (module_load results s.registry name).1 }
  | .unload name => (module_unload s.registry name).map fun after => { s with registry := after.1 }
  | .acquire name =>
    match module_acquire s.registry name with
    | (registry, result) => some { registry, held := if result = 0 then hold s.held [name] else s.held }
  | .release name =>
    some {
      registry := module_release s.registry name
      held := Function.update s.held name (s.held name - 1) }
  | .elf_load image exports kcalloc memory =>
    (module_elf_load results s.registry image exports kcalloc memory).map fun after => { s with registry := after.1 }

/-- Built-in modules have no dependencies, and a client releases what it has acquired. -/
def Admitted (s : System) : Op → Prop
  | .register_builtin (some descriptor) => descriptor.dependencyNames = []
  | .release name => 0 < s.held name
  | _ => True

instance (s : System) (op : Op) : Decidable (Admitted s op) :=
  match op with
  | .register_builtin (some descriptor) => inferInstanceAs (Decidable (descriptor.dependencyNames = []))
  | .release name => inferInstanceAs (Decidable (0 < s.held name))
  | .register_builtin none | .register _ | .load _ | .unload _ | .acquire _ | .elf_load .. => .isTrue trivial

/-- The state after the calls, when each of them is admitted and comes back. -/
def System.run (results : Nat → Int) (s : System) : List Op → Option System
  | [] => some s
  | op :: ops => if Admitted s op then (s.step results op).bind fun s => s.run results ops else none

def start : System := { registry := module_init, held := fun _ => 0 }

theorem start_counted : Counted start.registry start.held := by
  have hn {a b : Name} : ¬ DependsOn start.registry a b := by
    rintro ⟨slot, hm, _⟩
    cases hm
  constructor
  · exact Nat.zero_le _
  · exact List.nodup_nil
  · exact fun a b hab => absurd hab hn
  · intro slot hm
    cases hm
  · exact fun n hp => absurd hp (Nat.lt_irrefl 0)
  grind

theorem Counted.step {s s' : System} (h : Counted s.registry s.held) (rs : Nat → Int) {op : Op}
    (ha : Admitted s op) (hs : s.step rs op = some s') : Counted s'.registry s'.held := by
  cases op with
  | register ds =>
    cases hs
    exact h.register_descriptor ds 0 0 false false fun _ _ hl => by cases hl
  | register_builtin ds =>
    cases hs
    show Counted (module_register_builtin s.registry ds).1 s.held
    unfold module_register_builtin
    split
    · exact h
    next d =>
    split
    · exact h
    · refine h.register_descriptor (some d) 0 0 false true fun d' heq _ => ?_
      obtain rfl := Option.some.inj heq
      exact ha
  | load name =>
    cases hs
    exact (h.module_load rs name).counted
  | unload name =>
    obtain ⟨r', rl, hu, hc, _⟩ := h.module_unload name
    grind [System.step]
  | acquire name =>
    rcases hac : module_acquire s.registry name with ⟨r', rl⟩
    unfold System.step at hs
    dsimp only at hs
    rw [hac] at hs
    cases hs
    by_cases hz : rl = 0
    · subst hz
      have hn : Counted s.registry (hold s.held []) := by rwa [hold_nil]
      exact hn.acquire hac
    grind [module_acquire_fails]
  | release name =>
    cases hs
    have hh : s.held = hold (Function.update s.held name (s.held name - 1)) [name] := by
      have hp : 0 < s.held name := ha
      grind [hold]
    rw [hh] at h
    have hr := h.release
    rwa [hold_nil] at hr
  | elf_load i e kcalloc m =>
    unfold System.step at hs
    dsimp only at hs
    obtain ⟨after, hld, rfl⟩ := Option.map_eq_some_iff.mp hs
    exact h.module_elf_load rs i e kcalloc m hld

theorem System.run_invariant {i : System → Prop} {rs : Nat → Int}
    (hk : ∀ s op s', i s → Admitted s op → s.step rs op = some s' → i s')
    {s s' : System} {ops : List Op} (h : i s) (hr : s.run rs ops = some s') : i s' := by
  induction ops generalizing s with
  | nil =>
    cases hr
    exact h
  | cons op ops ih =>
    unfold System.run at hr
    split at hr
    next ha =>
      obtain ⟨s1, hs, hrs⟩ := Option.bind_eq_some_iff.mp hr
      exact ih (hk s op s1 h ha hs) hrs
    · cases hr

theorem Counted.run {s s' : System} (h : Counted s.registry s.held) (rs : Nat → Int) {ops : List Op}
    (hr : s.run rs ops = some s') : Counted s'.registry s'.held := by
  let invariant (s : System) : Prop := Counted s.registry s.held
  have hi : invariant s' := by
    refine System.run_invariant ?_ h hr
    grind [Counted.step]
  exact hi

def plain (name : Text) (dependencies : List Name) : Descriptor where
  structure_size := 56
  kernel_abi := 2
  name := some name
  version := some [0x31]
  flags := 0
  dependency_count := UInt32.ofNat dependencies.length
  dependencies := some fun i => dependencies.getD i none
  init := 1
  exit := 1

end mvh.module
