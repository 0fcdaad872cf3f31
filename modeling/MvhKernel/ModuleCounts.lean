-- The reference counts of modules.
import MvhKernel.Module
import Mathlib.Logic.Relation

open keyed_list

namespace mvh.module

/-! ## What is counted -/

def IsLive (r : Registry) (name : Name) : Prop := ∃ slot ∈ r.modules, slot.name = name ∧ slot.state = .LIVE

def DependsOn (r : Registry) (a b : Name) : Prop :=
  ∃ slot ∈ r.modules, slot.name = a ∧ slot.state = .LIVE ∧ b ∈ slot.descriptor.dependencyNames

def Slot.uses (name : Name) (slot : Slot) : Nat :=
  if slot.state = .LIVE then slot.descriptor.dependencyNames.count name else 0

def uses (r : Registry) (name : Name) : Nat := (r.modules.map (Slot.uses name)).sum

/-- The table is right, when `held` says how often each module is held from outside. -/
structure Counted (r : Registry) (held : Name → Nat) : Prop where
  size : r.modules.length ≤ MODULE_LIMIT
  unique : Unique Slot.name r.modules
  live : ∀ a b, DependsOn r a b → IsLive r b
  references : ∀ slot ∈ r.modules, slot.references.toNat = held slot.name + uses r slot.name
  held : ∀ name, 0 < held name → IsLive r name
  acyclic : ∀ name, ¬ Relation.TransGen (DependsOn r) name name

theorem uses_pos {r : Registry} {a b : Name} (h : DependsOn r a b) : 0 < uses r b := by
  obtain ⟨slot, hslot, _, hl, hm⟩ := h
  have hle : slot.uses b ≤ uses r b := List.single_le_sum (by simp) _ (List.mem_map_of_mem hslot)
  grind [Slot.uses]

theorem acyclic_of_source {α : Type} {R R' : α → α → Prop} (m : α) (hs : ∀ a, ¬ R' a m)
    (ho : ∀ a b, a ≠ m → R' a b → R a b) (h : ∀ a, ¬ Relation.TransGen R a a) (a : α) :
    ¬ Relation.TransGen R' a a := by
  intro hc
  have hne {b : α} (hb : Relation.TransGen R' a b) : b ≠ m := by grind
  have hold {b : α} (hb : Relation.TransGen R' a b) : Relation.TransGen R a b := by
    induction hb with
    | single hab => exact .single (ho _ _ (hne hc) hab)
    | tail hab hbc ih => exact .tail ih (ho _ _ (hne hab) hbc)
  exact h a (hold hc)

/-! ## One slot changes its state -/

def Registry.setState (r : Registry) (position : Nat) (state : State) : Registry :=
  r.update position fun slot => { slot with state }

section
variable {r : Registry} {position : Nat} {slot : Slot} {state : State} (hunique : Unique Slot.name r.modules)
  (hslot : r.modules[position]? = some slot)

include hunique hslot

theorem mem_setState {o : Slot} :
    o ∈ (r.setState position state).modules ↔
      o = { slot with state } ∨ (o ∈ r.modules ∧ o.name ≠ slot.name) :=
  hunique.mem_modify hslot

theorem isLive_setState {name : Name} :
    IsLive (r.setState position state) name ↔
      (name = slot.name ∧ state = .LIVE) ∨ (name ≠ slot.name ∧ IsLive r name) := by
  constructor
  · rintro ⟨o, ho, rfl, hl⟩
    rcases (mem_setState hunique hslot).mp ho with rfl | ⟨hm, hne⟩
    · exact Or.inl ⟨rfl, hl⟩
    · exact Or.inr ⟨hne, o, hm, rfl, hl⟩
  · rintro (⟨rfl, hl⟩ | ⟨hne, o, ho, rfl, hl⟩)
    · exact ⟨_, (mem_setState hunique hslot).mpr (Or.inl rfl), rfl, hl⟩
    · exact ⟨o, (mem_setState hunique hslot).mpr (Or.inr ⟨ho, hne⟩), rfl, hl⟩

theorem dependsOn_setState {a b : Name} :
    DependsOn (r.setState position state) a b ↔
      (a = slot.name ∧ state = .LIVE ∧ b ∈ slot.descriptor.dependencyNames) ∨ (a ≠ slot.name ∧ DependsOn r a b) := by
  constructor
  · rintro ⟨o, ho, rfl, hl, hb⟩
    rcases (mem_setState hunique hslot).mp ho with rfl | ⟨hm, hne⟩
    · exact Or.inl ⟨rfl, hl, hb⟩
    · exact Or.inr ⟨hne, o, hm, rfl, hl, hb⟩
  · rintro (⟨rfl, hl, hb⟩ | ⟨hne, o, ho, rfl, hl, hb⟩)
    · exact ⟨_, (mem_setState hunique hslot).mpr (Or.inl rfl), rfl, hl, hb⟩
    · exact ⟨o, (mem_setState hunique hslot).mpr (Or.inr ⟨ho, hne⟩), rfl, hl, hb⟩

omit hunique in
theorem uses_setState (state : State) (name : Name) :
    uses (r.setState position state) name + slot.uses name =
      uses r name + if state = .LIVE then slot.descriptor.dependencyNames.count name else 0 :=
  sum_modify (Slot.uses name) hslot

theorem not_isLive_of_state (hs : slot.state ≠ .LIVE) : ¬ IsLive r slot.name := by
  rintro ⟨o, ho, hn, hl⟩
  obtain rfl := hunique.eq_of_key ho (List.mem_of_getElem? hslot) hn
  exact hs hl

theorem IsLive.setState {name : Name} (hs : slot.state ≠ .LIVE) (state : State) (hl : IsLive r name) :
    IsLive (r.setState position state) name := by
  refine (isLive_setState hunique hslot).mpr (Or.inr ⟨?_, hl⟩)
  grind [not_isLive_of_state]

theorem DependsOn.of_setState {state : State} {a b : Name} (ha : state ≠ .LIVE)
    (hab : DependsOn (r.setState position state) a b) : DependsOn r a b := by
  rcases (dependsOn_setState hunique hslot).mp hab with ⟨_, hs, _⟩ | ⟨_, hab⟩
  · exact absurd hs ha
  · exact hab

end

theorem Unique.setState {r : Registry} (h : Unique Slot.name r.modules) (position : Nat) (state : State) :
    Unique Slot.name (r.setState position state).modules :=
  h.modify fun _ _ => rfl

theorem length_setState (r : Registry) (position : Nat) (state : State) :
    (r.setState position state).modules.length = r.modules.length :=
  List.length_modify _ _ _

section
variable {r : Registry} {held : Name → Nat} {position : Nat} {slot : Slot} {state : State}

theorem Counted.setState_idle (h : Counted r held) (hslot : r.modules[position]? = some slot)
    (hb : slot.state ≠ .LIVE) (ha : state ≠ .LIVE) : Counted (r.setState position state) held := by
  have hl {name : Name} (hn : IsLive r name) : IsLive (r.setState position state) name :=
    hn.setState h.unique hslot hb state
  have hu (name : Name) : uses (r.setState position state) name = uses r name := by
    have hs := uses_setState hslot state name
    grind [Slot.uses]
  have hd {a b : Name} (hab : DependsOn (r.setState position state) a b) : DependsOn r a b :=
    hab.of_setState h.unique hslot ha
  constructor
  · rw [length_setState]
    exact h.size
  · exact Unique.setState h.unique position state
  · exact fun a b hab => hl (h.live a b (hd hab))
  · intro o ho
    rw [hu]
    rcases (mem_setState h.unique hslot).mp ho with rfl | ⟨hm, _⟩
    · exact h.references slot (List.mem_of_getElem? hslot)
    · exact h.references o hm
  · exact fun name hnm => hl (h.held name hnm)
  · exact fun name hc => h.acyclic name (hc.lift id fun a b hab => hd hab)

def hold (held : Name → Nat) (names : List Name) : Name → Nat := fun name => held name + names.count name

@[simp] theorem hold_nil (held : Name → Nat) : hold held [] = held := by
  funext name
  simp [hold]

theorem Counted.setState_live {names : List Name}
    (h : Counted r (hold held names)) (hslot : r.modules[position]? = some slot) (hbf : slot.state ≠ .LIVE)
    (hnm : names.Perm slot.descriptor.dependencyNames) : Counted (r.setState position .LIVE) held := by
  have hdd := not_isLive_of_state h.unique hslot hbf
  have hl {name : Name} (hn : IsLive r name) : IsLive (r.setState position .LIVE) name :=
    hn.setState h.unique hslot hbf .LIVE
  have hd {name : Name} (hn : name ∈ slot.descriptor.dependencyNames) : IsLive r name := by
    have hp : 0 < names.count name := by grind
    exact h.held name (by unfold hold; omega)
  have hu (name : Name) : uses (r.setState position .LIVE) name = uses r name + names.count name := by
    have hs := uses_setState hslot .LIVE name
    grind [Slot.uses]
  constructor
  · rw [length_setState]
    exact h.size
  · exact Unique.setState h.unique position .LIVE
  · intro a b hab
    rcases (dependsOn_setState h.unique hslot).mp hab with ⟨_, _, hb⟩ | ⟨_, hab⟩
    · exact hl (hd hb)
    · exact hl (h.live a b hab)
  · intro o ho
    have hc {name : Name} {rf : Nat} (hr : rf = hold held names name + uses r name) :
        rf = held name + uses (r.setState position .LIVE) name := by grind [hold]
    rcases (mem_setState h.unique hslot).mp ho with rfl | ⟨hm, _⟩
    · exact hc (h.references slot (List.mem_of_getElem? hslot))
    · exact hc (h.references o hm)
  · exact fun name hna => hl (h.held name (by unfold hold; omega))
  · -- No edge enters the module, since it was not live.
    apply acyclic_of_source slot.name ?_ ?_ h.acyclic
    · intro a hab
      rcases (dependsOn_setState h.unique hslot).mp hab with ⟨_, _, hb⟩ | ⟨_, hab⟩
      · exact hdd (hd hb)
      · exact hdd (h.live _ _ hab)
    · intro a b hne hab
      rcases (dependsOn_setState h.unique hslot).mp hab with ⟨heq, _⟩ | ⟨_, hab⟩
      · exact absurd heq hne
      · exact hab

theorem Counted.setState_dying (h : Counted r held) (hslot : r.modules[position]? = some slot)
    (hb : slot.state = .LIVE) (hf : slot.references = 0) (ha : state ≠ .LIVE) :
    Counted (r.setState position state) (hold held slot.descriptor.dependencyNames) := by
  have hz : held slot.name + uses r slot.name = 0 := by
    rw [← h.references slot (List.mem_of_getElem? hslot), hf]
    rfl
  have hu {a : Name} : ¬ DependsOn r a slot.name := by
    intro hab
    have := uses_pos hab
    omega
  have hl {name : Name} (hn : IsLive r name) (hne : name ≠ slot.name) :
      IsLive (r.setState position state) name :=
    (isLive_setState h.unique hslot).mpr (Or.inr ⟨hne, hn⟩)
  have hdp {name : Name} (hn : name ∈ slot.descriptor.dependencyNames) :
      IsLive (r.setState position state) name := by
    have hd : DependsOn r slot.name name := ⟨slot, List.mem_of_getElem? hslot, rfl, hb, hn⟩
    refine hl (h.live _ _ hd) ?_
    rintro rfl
    exact hu hd
  have hus (name : Name) :
      uses (r.setState position state) name + slot.descriptor.dependencyNames.count name = uses r name := by
    have hs := uses_setState hslot state name
    unfold Slot.uses at hs
    rwa [if_pos hb, if_neg ha] at hs
  have hd {a b : Name} (hab : DependsOn (r.setState position state) a b) : DependsOn r a b :=
    hab.of_setState h.unique hslot ha
  constructor
  · rw [length_setState]
    exact h.size
  · exact Unique.setState h.unique position state
  · intro a b hab
    refine hl (h.live a b (hd hab)) ?_
    rintro rfl
    exact hu (hd hab)
  · intro o ho
    have hc {name : Name} {rf : Nat} (hr : rf = held name + uses r name) :
        rf = hold held slot.descriptor.dependencyNames name + uses (r.setState position state) name := by
      have hs := hus name
      unfold hold
      omega
    rcases (mem_setState h.unique hslot).mp ho with rfl | ⟨hm, _⟩
    · exact hc (h.references slot (List.mem_of_getElem? hslot))
    · exact hc (h.references o hm)
  · intro name hnm
    by_cases hn : name ∈ slot.descriptor.dependencyNames
    · exact hdp hn
    · have hp : 0 < held name := by
        unfold hold at hnm
        rwa [List.count_eq_zero_of_not_mem hn] at hnm
      refine hl (h.held name hp) ?_
      rintro rfl
      omega
  · exact fun name hcy => h.acyclic name (hcy.lift id fun a b hab => hd hab)

end

/-! ## Acquire and release -/

def Registry.setReferences (r : Registry) (position : Nat) (f : UInt32 → UInt32) : Registry :=
  r.update position fun slot => { slot with references := f slot.references }

section
variable {r : Registry} {held held' : Name → Nat} {position : Nat} {slot : Slot} {f : UInt32 → UInt32}

theorem mem_setReferences (hunique : Unique Slot.name r.modules) (hslot : r.modules[position]? = some slot)
    {o : Slot} :
    o ∈ (r.setReferences position f).modules ↔
      o = { slot with references := f slot.references } ∨ (o ∈ r.modules ∧ o.name ≠ slot.name) :=
  hunique.mem_modify hslot

theorem uses_setReferences (hslot : r.modules[position]? = some slot) (name : Name) :
    uses (r.setReferences position f) name = uses r name := by
  have hs := sum_modify (f := fun slot : Slot => { slot with references := f slot.references })
    (Slot.uses name) hslot
  exact Nat.add_right_cancel hs

theorem isLive_setReferences (hunique : Unique Slot.name r.modules) (hslot : r.modules[position]? = some slot)
    {name : Name} (h : IsLive r name) : IsLive (r.setReferences position f) name := by
  obtain ⟨o, ho, rfl, hl⟩ := h
  by_cases hn : o.name = slot.name
  · obtain rfl := hunique.eq_of_key ho (List.mem_of_getElem? hslot) hn
    exact ⟨_, (mem_setReferences hunique hslot).mpr (Or.inl rfl), rfl, hl⟩
  · exact ⟨o, (mem_setReferences hunique hslot).mpr (Or.inr ⟨ho, hn⟩), rfl, hl⟩

theorem dependsOn_setReferences (hunique : Unique Slot.name r.modules) (hslot : r.modules[position]? = some slot)
    {a b : Name} (h : DependsOn (r.setReferences position f) a b) : DependsOn r a b := by
  obtain ⟨o, ho, rfl, hl, hb⟩ := h
  rcases (mem_setReferences hunique hslot).mp ho with rfl | ⟨hm, _⟩
  · exact ⟨slot, List.mem_of_getElem? hslot, rfl, hl, hb⟩
  · exact ⟨o, hm, rfl, hl, hb⟩

theorem Counted.setReferences (h : Counted r held) (hslot : r.modules[position]? = some slot)
    (hc : (f slot.references).toNat = held' slot.name + uses r slot.name)
    (ho : ∀ name, name ≠ slot.name → held' name = held name)
    (hlv : 0 < held' slot.name → IsLive r slot.name) : Counted (r.setReferences position f) held' := by
  constructor
  · have hl : (r.setReferences position f).modules.length = r.modules.length := List.length_modify _ _ _
    rw [hl]
    exact h.size
  · exact h.unique.modify fun _ _ => rfl
  · intro a b hab
    exact isLive_setReferences h.unique hslot (h.live a b (dependsOn_setReferences h.unique hslot hab))
  · intro o hm
    rw [uses_setReferences hslot]
    rcases (mem_setReferences h.unique hslot).mp hm with rfl | ⟨hm, hne⟩
    · exact hc
    · rw [ho _ hne]
      exact h.references o hm
  · intro name hn
    apply isLive_setReferences h.unique hslot
    by_cases heq : name = slot.name
    · subst heq
      exact hlv hn
    · rw [ho name heq] at hn
      exact h.held name hn
  · exact fun name hcy =>
      h.acyclic name (hcy.lift id fun a b hab => dependsOn_setReferences h.unique hslot hab)

end

section
variable {r r' : Registry} {held : Name → Nat} {name : Name} {names : List Name}

theorem find_slot_some {position : Nat} (h : find_slot r name = some position) :
    ∃ slot, r.modules[position]? = some slot ∧ slot.name = name := keyed_list.place_some h

theorem module_acquire_cases (r : Registry) (name : Name) : module_acquire r name = (r, -1) ∨
    ∃ position slot, r.modules[position]? = some slot ∧ slot.name = name ∧ slot.state = .LIVE ∧
      slot.references ≠ 0xFFFFFFFF ∧ module_acquire r name = (r.setReferences position (· + 1), 0) := by
  unfold module_acquire
  rcases hf : find_slot r name with _ | position
  · exact Or.inl rfl
  obtain ⟨slot, hslot, hn⟩ := find_slot_some hf
  dsimp only
  rw [hslot]
  dsimp only
  by_cases hc : slot.state ≠ .LIVE ∨ slot.references = 0xFFFFFFFF
  · simp [hc]
  · rw [if_neg hc]
    rw [not_or, not_not] at hc
    exact Or.inr ⟨position, slot, hslot, hn, hc.1, hc.2, rfl⟩

theorem module_acquire_zero (h : module_acquire r name = (r', 0)) :
    ∃ position slot, r.modules[position]? = some slot ∧ slot.name = name ∧ slot.state = .LIVE ∧
      slot.references ≠ 0xFFFFFFFF ∧ r' = r.setReferences position (· + 1) := by
  rcases module_acquire_cases r name with heq | ⟨position, slot, hslot, hn, hl, hm, heq⟩
  · grind
  grind

theorem module_acquire_fails {rs : Int} (h : module_acquire r name = (r', rs)) (hr : rs ≠ 0) :
    r' = r := by
  rcases module_acquire_cases r name with heq | ⟨_, _, _, _, _, _, heq⟩
  · exact (Prod.mk.inj (h.symm.trans heq)).1
  · grind

theorem Counted.acquire (h : Counted r (hold held names)) (ha : module_acquire r name = (r', 0)) :
    Counted r' (hold held (name :: names)) := by
  obtain ⟨position, slot, hslot, rfl, hl, hm, rfl⟩ := module_acquire_zero ha
  have hr := h.references slot (List.mem_of_getElem? hslot)
  have hlt := slot.references.toNat_lt
  have hne : slot.references.toNat ≠ 2 ^ 32 - 1 := by grind
  apply h.setReferences hslot
  · grind [UInt32.toNat_add, Nat.mod_eq_of_lt, hold, List.count_cons_self, UInt32.toNat_one]
  · grind [hold]
  · exact fun _ => ⟨slot, List.mem_of_getElem? hslot, rfl, hl⟩

theorem module_release_eq {position : Nat} (h : find_slot r name = some position) :
    module_release r name = r.setReferences position fun references =>
      if references ≠ 0 then references - 1 else references := by
  unfold module_release
  rw [h]
  have hs : (fun slot : Slot =>
      if slot.references ≠ 0 then { slot with references := slot.references - 1 } else slot) =
        fun slot => { slot with
          references := if slot.references ≠ 0 then slot.references - 1 else slot.references } := by
    funext slot
    split <;> rfl
  exact congrArg (r.update position) hs

theorem Counted.release (h : Counted r (hold held (name :: names))) :
    Counted (module_release r name) (hold held names) := by
  have hp : 0 < hold held (name :: names) name := by
    simp only [hold, List.count_cons_self]
    omega
  obtain ⟨slot, hm, hn, hl⟩ := h.held name hp
  obtain ⟨position, hslot⟩ := List.mem_iff_getElem?.mp hm
  have hf : find_slot r name = some position := by
    rw [← hn]
    exact h.unique.place_eq hslot
  subst hn
  have hr := h.references slot hm
  simp only [hold, List.count_cons_self] at hr
  have hne : slot.references ≠ 0 := by
    intro hz
    rw [hz, UInt32.toNat_zero] at hr
    omega
  rw [module_release_eq hf]
  apply h.setReferences hslot
  · grind [UInt32.toNat_sub_of_le, hold, UInt32.toNat_one]
  · grind [hold]
  · exact fun _ => ⟨slot, hm, rfl, hl⟩

theorem Counted.releaseAll (h : Counted r (hold held names)) : Counted (releaseAll r names) held := by
  induction names generalizing r with
  | nil => rwa [hold_nil] at h
  | cons name names ih => exact ih h.release

end

end mvh.module
