-- What a load does to the table.
import MvhKernel.ModuleCounts

open keyed_list

namespace mvh.module

/-! ## Slots during a load -/

/-- No call is under way for a slot in this state, and it is not live. -/
def Calm (state : State) : Prop := state ≠ .LOADING ∧ state ≠ .UNLOADING ∧ state ≠ .LIVE

def Slot.Grows (slot slot' : Slot) : Prop :=
  slot'.descriptor = slot.descriptor ∧
    (slot'.state = slot.state ∨ (Calm slot.state ∧ (slot'.state = .LIVE ∨ slot'.state = .FAILED)))

theorem Slot.Grows.refl (slot : Slot) : slot.Grows slot := ⟨rfl, Or.inl rfl⟩

theorem Slot.Grows.trans {a b c : Slot} (h1 : a.Grows b) (h2 : b.Grows c) : a.Grows c := by
  refine ⟨h2.1.trans h1.1, ?_⟩
  rcases h2.2 with h2 | ⟨hc, h2⟩
  · rw [h2]
    exact h1.2
  · rcases h1.2 with h1 | ⟨h1, _⟩
    · grind
    · exact Or.inr ⟨h1, h2⟩

/-- The slots stay where they are, and each one grows. -/
structure Grows (r r' : Registry) : Prop where
  length : r'.modules.length = r.modules.length
  slots : ∀ (position : Nat) (slot : Slot), r.modules[position]? = some slot →
    ∃ slot', r'.modules[position]? = some slot' ∧ slot.Grows slot'

section
variable {r r' r'' : Registry} {position : Nat} {slot : Slot} {f : Slot → Slot}

theorem Grows.refl (r : Registry) : Grows r r := ⟨rfl, fun _ slot h => ⟨slot, h, .refl slot⟩⟩

theorem Grows.trans (h1 : Grows r r') (h2 : Grows r' r'') : Grows r r'' := by
  refine ⟨h2.length.trans h1.length, ?_⟩
  intro position slot hs
  obtain ⟨s', hs', hg⟩ := h1.slots position slot hs
  obtain ⟨s'', hs1, hg'⟩ := h2.slots position s' hs'
  exact ⟨s'', hs1, hg.trans hg'⟩

theorem getElem?_update_self (h : r.modules[position]? = some slot) :
    (r.update position f).modules[position]? = some (f slot) := by
  show (r.modules.modify position f)[position]? = some (f slot)
  rw [List.getElem?_modify, h]
  simp

theorem getElem?_update_ne {o : Nat} (h : position ≠ o) :
    (r.update position f).modules[o]? = r.modules[o]? := by
  show (r.modules.modify position f)[o]? = r.modules[o]?
  rw [List.getElem?_modify]
  simp [h]

theorem Grows.update (h : ∀ slot, r.modules[position]? = some slot → slot.Grows (f slot)) :
    Grows r (r.update position f) := by
  refine ⟨List.length_modify _ _ _, ?_⟩
  intro o slot hs
  by_cases heq : position = o
  · subst heq
    exact ⟨f slot, getElem?_update_self hs, h slot hs⟩
  · exact ⟨slot, (getElem?_update_ne heq).trans hs, .refl slot⟩

theorem Grows.setReferences (r : Registry) (position : Nat) (f : UInt32 → UInt32) :
    Grows r (r.setReferences position f) :=
  .update fun _ _ => ⟨rfl, Or.inl rfl⟩

theorem grows_acquire (r : Registry) (n : Name) : Grows r (module_acquire r n).1 := by
  rcases module_acquire_cases r n with heq | ⟨position, _, _, _, _, _, heq⟩
  · rw [heq]
    exact .refl r
  · rw [heq]
    exact .setReferences r position (· + 1)

theorem grows_release (r : Registry) (n : Name) : Grows r (module_release r n) := by
  unfold module_release
  split
  · exact .refl r
  · apply Grows.update
    intro slot _
    split
    · exact ⟨rfl, Or.inl rfl⟩
    · exact .refl slot

theorem grows_releaseAll (r : Registry) (n : List Name) : Grows r (releaseAll r n) := by
  induction n generalizing r with
  | nil => exact .refl r
  | cons nm n ih => exact (grows_release r nm).trans (ih _)

theorem Grows.loading (h : Grows r r') (hsl : r.modules[position]? = some slot) (hs : slot.state = .LOADING) :
    ∃ s', r'.modules[position]? = some s' ∧ s'.descriptor = slot.descriptor ∧ s'.state = .LOADING := by
  obtain ⟨s', hs', hd, hsm | ⟨hc, _⟩⟩ := h.slots position slot hsl
  · exact ⟨s', hs', hd, hsm.trans hs⟩
  · exact absurd hs hc.1

theorem Grows.around (hs : r.modules[position]? = some slot) (hc : Calm slot.state)
    (h : Grows (r.setState position .LOADING) r') {state : State} (hst : state = .LIVE ∨ state = .FAILED) :
    Grows r (r'.setState position state) := by
  constructor
  · rw [length_setState, h.length, length_setState]
  intro o slot' hs'
  by_cases heq : position = o
  · subst heq
    rw [hs] at hs'
    obtain rfl := Option.some.inj hs'
    have hm : (r.setState position .LOADING).modules[position]? = some { slot with state := .LOADING } :=
      getElem?_update_self hs
    obtain ⟨l, hl, hd, _⟩ := h.loading hm rfl
    exact ⟨{ l with state }, getElem?_update_self hl, hd, Or.inr ⟨hc, hst⟩⟩
  · have hm : (r.setState position .LOADING).modules[o]? = some slot' :=
      (getElem?_update_ne heq).trans hs'
    obtain ⟨l, hl, hg⟩ := h.slots o slot' hm
    exact ⟨l, (getElem?_update_ne heq).trans hl, hg⟩

end

/-! ## Counts during a load -/

theorem Counted.congr {r r' : Registry} {held : Name → Nat} (h : Counted r held) (hm : r'.modules = r.modules) :
    Counted r' held := by
  obtain ⟨modules, hp, i⟩ := r
  obtain ⟨m', hp', i'⟩ := r'
  obtain rfl : m' = modules := hm
  exact ⟨h.size, h.unique, h.live, h.references, h.held, h.acyclic⟩

/-- What is known of a load that began in `r`. -/
structure Loaded (r : Registry) (name : Name) (held : Name → Nat) (after : Registry × Int) : Prop where
  counted : Counted after.1 held
  grows : Grows r after.1
  live : after.2 = 0 → IsLive after.1 name
  dead : after.2 ≠ 0 → ¬ IsLive r name → ¬ IsLive after.1 name

theorem load_dependencies_counted {load : Registry → Name → Registry × Int}
    (hl : ∀ r nm hd, Counted r hd → Loaded r nm hd (load r nm))
    {r : Registry} {hd : Name → Nat} {a : List Name} (n : List Name)
    (h : Counted r (hold hd a)) :
    let after := load_dependencies load r n a
    Counted after.1 (hold hd after.2.1) ∧ Grows r after.1 ∧
      (after.2.2 = 0 → after.2.1 = n.reverse ++ a) := by
  induction n generalizing r a with
  | nil => exact ⟨h, .refl r, fun _ => rfl⟩
  | cons nm n ih =>
    have hs := hl r nm _ h
    unfold load_dependencies
    split
    next r1 rs hr1 =>
    rw [hr1] at hs
    split
    · exact ⟨hs.counted, hs.grows, fun hz => absurd hz (by simp)⟩
    split
    next r2 rs2 hr2 =>
    have hg := hs.grows.trans (grows_acquire r1 nm)
    rw [hr2] at hg
    split
    next hf =>
      obtain rfl := module_acquire_fails hr2 hf
      exact ⟨hs.counted, hs.grows, fun hz => absurd hz (by simp)⟩
    next hz =>
      obtain rfl := not_not.mp hz
      obtain ⟨hc, hg', ha⟩ := ih (hs.counted.acquire hr2)
      refine ⟨hc, hg.trans hg', fun hr => ?_⟩
      grind

theorem load_begin_cases (r : Registry) (n : Name) : load_begin r n = .refused ∨
    ∃ position slot, find_slot r n = some position ∧ r.modules[position]? = some slot ∧
      slot.name = n ∧ ((slot.state = .LIVE ∧ load_begin r n = .already) ∨
        (Calm slot.state ∧ load_begin r n =
          .begun position slot.descriptor (r.setState position .LOADING))) := by
  unfold load_begin
  rcases hf : find_slot r n with _ | position
  · exact Or.inl rfl
  obtain ⟨slot, hs, hn⟩ := find_slot_some hf
  dsimp only
  rw [hs]
  dsimp only
  by_cases hb : slot.state = .LOADING ∨ slot.state = .UNLOADING
  · rw [if_pos hb]
    exact Or.inl rfl
  rw [if_neg hb]
  refine Or.inr ⟨position, slot, rfl, hs, hn, ?_⟩
  by_cases hl : slot.state = .LIVE
  · simp [hl]
  · rw [if_neg hl]
    rw [not_or] at hb
    exact Or.inr ⟨⟨hb.1, hb.2, hl⟩, rfl⟩

theorem load_begin_begun {r r' : Registry} {n : Name} {position : Nat} {d : Descriptor}
    (h : load_begin r n = .begun position d r') :
    ∃ slot, r.modules[position]? = some slot ∧ slot.name = n ∧ Calm slot.state ∧
      d = slot.descriptor ∧ r' = r.setState position .LOADING := by
  rcases load_begin_cases r n with
    heq | ⟨place, slot, _, hs, hn, ⟨_, heq⟩ | ⟨hc, heq⟩⟩
  · cases heq.symm.trans h
  · cases heq.symm.trans h
  grind

theorem load_begin_place {r r' : Registry} {n : Name} {position : Nat} {d : Descriptor}
    (h : load_begin r n = .begun position d r') : find_slot r n = some position := by
  rcases load_begin_cases r n with heq | ⟨place, slot, hf, _, _, ⟨_, heq⟩ | ⟨_, heq⟩⟩
  · cases heq.symm.trans h
  · cases heq.symm.trans h
  grind

theorem load_begin_live {r : Registry} {n : Name} (h : load_begin r n = .already) :
    ∃ position slot, find_slot r n = some position ∧ r.modules[position]? = some slot ∧
      slot.name = n ∧ slot.state = .LIVE := by
  rcases load_begin_cases r n with
    heq | ⟨position, slot, hf, hs, hn, ⟨hl, _⟩ | ⟨_, heq⟩⟩
  · cases heq.symm.trans h
  · exact ⟨position, slot, hf, hs, hn, hl⟩
  · cases heq.symm.trans h

theorem load_begin_already {r : Registry} {name : Name} (h : load_begin r name = .already) : IsLive r name := by
  obtain ⟨position, slot, -, hs, hn, hl⟩ := load_begin_live h
  exact ⟨slot, List.mem_of_getElem? hs, hn, hl⟩

theorem call_init_modules (rs : Nat → Int) (r : Registry) (d : Descriptor) :
    (call_init rs r d).1.modules = r.modules := by
  unfold call_init
  split <;> rfl

theorem Grows.congr {r r' r'' : Registry} (h : Grows r r') (hm : r''.modules = r'.modules) : Grows r r'' := by
  refine ⟨?_, ?_⟩
  · rw [hm]
    exact h.length
  · rw [hm]
    exact h.slots

theorem Counted.load_end {r : Registry} {held : Name → Nat} {position : Nat} {slot : Slot} {a : List Name}
    {rs : Int} (h : Counted r (hold held a)) (hsl : r.modules[position]? = some slot)
    (hs : slot.state = .LOADING)
    (ha : rs = 0 → a.Perm slot.descriptor.dependencyNames) :
    Counted (module.load_end (if rs ≠ 0 then module.releaseAll r a else r) position rs) held := by
  have hn : slot.state ≠ .LIVE := by
    rw [hs]
    decide
  unfold module.load_end
  by_cases hz : rs = 0
  · rw [if_neg (not_not.mpr hz)]
    simp only [hz, if_true]
    exact h.setState_live hsl hn (ha hz)
  · rw [if_pos hz]
    simp only [hz, if_false]
    obtain ⟨s', hs1, _, hs'⟩ := (grows_releaseAll r a).loading hsl hs
    have hn' : s'.state ≠ .LIVE := by
      rw [hs']
      decide
    exact h.releaseAll.setState_idle hs1 hn' State.noConfusion

theorem Loaded.finish {r r' : Registry} {name : Name} {hd : Name → Nat} {position : Nat} {slot : Slot}
    {a : List Name} {rs : Int} (hs : r.modules[position]? = some slot) (hn : slot.name = name)
    (hcl : Calm slot.state) (hc : Counted r' (hold hd a))
    (hg : Grows (r.setState position .LOADING) r')
    (ha : rs = 0 → a.Perm slot.descriptor.dependencyNames) :
    Loaded r name hd (load_end (if rs ≠ 0 then releaseAll r' a else r') position rs, rs) := by
  have hm : (r.setState position .LOADING).modules[position]? = some { slot with state := .LOADING } :=
    getElem?_update_self hs
  obtain ⟨s', hsl, hd', hs'⟩ := hg.loading hm rfl
  rw [← show s'.descriptor = slot.descriptor from hd'] at ha
  have he := hc.load_end hsl hs' ha
  generalize hr4 : (if rs ≠ 0 then releaseAll r' a else r') = r4 at he
  have hg4 : Grows (r.setState position .LOADING) r4 := by
    rw [← hr4]
    split
    · exact hg.trans (grows_releaseAll r' a)
    · exact hg
  obtain ⟨s4, hs4, hd4, _⟩ := hg4.loading hm rfl
  have hl : (load_end r4 position rs).modules[position]? =
      some { s4 with state := if rs = 0 then .LIVE else .FAILED } := getElem?_update_self hs4
  have hn4 : s4.name = name := by
    rw [← hn]
    exact congrArg Descriptor.name hd4
  refine ⟨he, hg4.around hs hcl ?_, ?_, ?_⟩
  · grind
  · intro hz
    exact ⟨_, List.mem_of_getElem? hl, hn4, if_pos hz⟩
  · intro hne _
    rw [← hn4]
    apply not_isLive_of_state he.unique hl
    simp [hne]

theorem load_at_counted (rs : Nat → Int) (d : Nat) (r : Registry) (n : Name) (hl : Name → Nat)
    (h : Counted r hl) : Loaded r n hl (load_at rs d r n) := by
  induction d generalizing r n hl with
  | zero => exact ⟨h, .refl r, fun hz => absurd hz (by simp [load_at]), fun _ hd => hd⟩
  | succ d ih =>
    unfold load_at
    split
    · exact ⟨h, .refl r, fun hz => absurd hz (by simp), fun _ hd => hd⟩
    next ha =>
      exact ⟨h, .refl r, fun _ => load_begin_already ha, fun hne => absurd rfl hne⟩
    next position ds r1 hb =>
    obtain ⟨slot, hs, hn, hcl, rfl, rfl⟩ := load_begin_begun hb
    have hc : Counted (r.setState position .LOADING) (hold hl []) := by
      rw [hold_nil]
      exact h.setState_idle hs hcl.2.2 (by decide)
    obtain ⟨hc2, hg2, hal⟩ :=
      load_dependencies_counted ih slot.descriptor.dependencyNames hc
    split
    next r2 a rl2 hr2 =>
    rw [hr2] at hc2 hg2 hal
    dsimp only at hc2 hg2 hal
    split
    next r3 rl hr3 =>
    -- A call of `init` leaves the table as it is.
    have hm : r3.modules = r2.modules := by grind [call_init_modules]
    have hf : rl = 0 → rl2 = 0 := by grind
    apply Loaded.finish hs hn hcl (hc2.congr hm) (hg2.congr hm)
    grind

/-! ## The depth of the recursion -/

def idle (r : Registry) : Nat := (r.modules.map fun slot => if slot.state = .LOADING then 0 else 1).sum

theorem idle_le (r : Registry) : idle r ≤ r.modules.length := by
  unfold idle
  induction r.modules with
  | nil => exact Nat.le_refl 0
  | cons slot m ih => grind

theorem idle_mark {r : Registry} {position : Nat} {slot : Slot} (hs : r.modules[position]? = some slot)
    (hc : Calm slot.state) : idle (r.setState position .LOADING) + 1 = idle r := by
  have hsm := sum_modify (f := fun slot : Slot => { slot with state := .LOADING })
    (fun slot => if slot.state = .LOADING then 0 else 1) hs
  rw [if_neg hc.1] at hsm
  exact hsm

theorem Grows.idle {r r' : Registry} (h : Grows r r') : idle r' = idle r := by
  unfold module.idle
  congr 1
  apply List.ext_getElem?
  intro position
  rw [List.getElem?_map, List.getElem?_map]
  cases hsl : r.modules[position]? with
  | none =>
    have hl := List.getElem?_eq_none_iff.mp hsl
    rw [← h.length] at hl
    rw [List.getElem?_eq_none hl]
  | some slot =>
    obtain ⟨s', hs', _, hsm | ⟨hc, hs⟩⟩ := h.slots position slot hsl
    · rw [hs', Option.map_some, Option.map_some, hsm]
    · rw [hs', Option.map_some, Option.map_some, if_neg hc.1, if_neg]
      rcases hs with hs | hs <;> simp [hs]

end mvh.module
