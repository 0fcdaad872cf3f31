-- The order in which a load calls the `init` functions.
import MvhKernel.ModuleRuns

open keyed_list

namespace mvh.module

/-! ## The calls of a load -/

/-- A call of `init`, with the table at that moment. -/
structure InitCall where
  descriptor : Descriptor
  registry : Registry

def InitCall.name (call : InitCall) : Name := call.descriptor.name

def dependencyCalls (load : Registry → Name → Registry × Int)
    (calls : Registry → Name → Option (List InitCall)) :
    Registry → List Name → Option (List InitCall)
  | _, [] => some []
  | r, name :: names =>
    match calls r name with
    | none => none
    | some first =>
      match load r name with
      | (r, result) =>
        if result ≠ 0 then some first
        else
          match module_acquire r name with
          | (r, result) =>
            if result ≠ 0 then some first
            else (dependencyCalls load calls r names).map (first ++ ·)

/-- The calls of `init` that a load makes, in their order. -/
def initCalls (results : Nat → Int) : Nat → Registry → Name → Option (List InitCall)
  | 0, _, _ => none
  | depth + 1, r, name =>
    match load_begin r name with
    | .refused => some []
    | .already => some []
    | .begun _ descriptor r =>
      (dependencyCalls (load_at results depth) (initCalls results depth) r
        descriptor.dependencyNames).map fun calls =>
          match load_dependencies (load_at results depth) r descriptor.dependencyNames [] with
          | (r, _, result) =>
            if result = 0 ∧ descriptor.init ≠ 0 then calls ++ [⟨descriptor, r⟩] else calls

/-! ## Slots that grow -/

section
variable {r r' : Registry}

theorem Grows.back (h : Grows r r') {position : Nat} {slot' : Slot}
    (hs' : r'.modules[position]? = some slot') :
    ∃ slot, r.modules[position]? = some slot ∧ slot.Grows slot' := by
  have hlt := (List.getElem?_eq_some_iff.mp hs').1
  rw [h.length] at hlt
  obtain ⟨l, hl, hg⟩ := h.slots position _ (List.getElem?_eq_getElem hlt)
  grind

theorem Grows.isLive (h : Grows r r') {name : Name} (hl : IsLive r name) : IsLive r' name := by
  obtain ⟨slot, hm, hn, hs⟩ := hl
  obtain ⟨position, hsl⟩ := List.mem_iff_getElem?.mp hm
  obtain ⟨s', hs', hd, hsm | ⟨hc, _⟩⟩ := h.slots position slot hsl
  · refine ⟨s', List.mem_of_getElem? hs', ?_, hsm.trans hs⟩
    rw [← hn]
    exact congrArg Descriptor.name hd
  · exact absurd hs hc.2.2

/-- The module of the descriptor is in the table, and it is neither live nor under way. -/
def IsCalm (r : Registry) (descriptor : Descriptor) : Prop :=
  ∃ slot ∈ r.modules, slot.descriptor = descriptor ∧ Calm slot.state

theorem Grows.isCalm (h : Grows r r') {descriptor : Descriptor} (hc : IsCalm r' descriptor) :
    IsCalm r descriptor := by
  obtain ⟨s', hm', hd, hst⟩ := hc
  obtain ⟨position, hs'⟩ := List.mem_iff_getElem?.mp hm'
  obtain ⟨slot, hs, hsm, hg⟩ := h.back hs'
  refine ⟨slot, List.mem_of_getElem? hs, hsm.symm.trans hd, ?_⟩
  grind

theorem not_isLive_of_isCalm (hu : Unique Slot.name r.modules) {d : Descriptor}
    (h : IsCalm r d) : ¬ IsLive r d.name := by
  obtain ⟨slot, hm, rfl, hc⟩ := h
  rintro ⟨o, ho, hn, hl⟩
  obtain rfl := hu.eq_of_key ho hm hn
  exact hc.2.2 hl

end

/-! ## Calls in order -/

/-- What is known of the calls of `init` while the table goes from `r` to `r'`: the log has
them, no module has two, each was calm and found its dependencies live, and all of them
are live in the end if nothing has failed. -/
structure InOrder (r r' : Registry) (result : Int) (calls : List InitCall) : Prop where
  log : r'.inits = (calls.map InitCall.name).reverse ++ r.inits
  once : (calls.map InitCall.name).Nodup
  calm : ∀ call ∈ calls, IsCalm r call.descriptor
  ready : ∀ call ∈ calls, ∀ name ∈ call.descriptor.dependencyNames, IsLive call.registry name
  live : result = 0 → ∀ call ∈ calls, IsLive r' call.name

section
variable {r r1 r2 r' : Registry} {result : Int} {calls first rest : List InitCall}

theorem inOrder_nil (h : r'.inits = r.inits) : InOrder r r' result [] where
  log := h
  once := List.nodup_nil
  calm := fun _ hc => absurd hc List.not_mem_nil
  ready := fun _ hc => absurd hc List.not_mem_nil
  live := fun _ _ hc => absurd hc List.not_mem_nil

theorem InOrder.congr {rs' : Int} (h : InOrder r r1 result calls) (hi : r'.inits = r1.inits)
    (hl : rs' = 0 → ∀ c ∈ calls, IsLive r' c.name) : InOrder r r' rs' calls where
  log := hi.trans h.log
  once := h.once
  calm := h.calm
  ready := h.ready
  live := hl

theorem InOrder.call {c : InitCall} (h : InOrder r r1 result calls)
    (hi : r'.inits = c.name :: r1.inits) (hn : c.name ∉ calls.map InitCall.name)
    (hc : IsCalm r c.descriptor)
    (hr : ∀ n ∈ c.descriptor.dependencyNames, IsLive c.registry n) {rs' : Int}
    (hl : rs' = 0 → IsLive r' c.name ∧ ∀ c ∈ calls, IsLive r' c.name) :
    InOrder r r' rs' (calls ++ [c]) where
  log := by
    rw [hi, h.log, List.map_append, List.reverse_append]
    rfl
  once := by
    rw [List.map_append]
    refine List.Nodup.append h.once (List.nodup_singleton _) ?_
    exact List.disjoint_singleton.mpr hn
  calm := by
    intro o ho
    rcases List.mem_append.mp ho with ho | ho
    · exact h.calm o ho
    grind
  ready := by
    intro o ho
    rcases List.mem_append.mp ho with ho | ho
    · exact h.ready o ho
    grind
  live := by
    intro hz o ho
    grind

theorem InOrder.append (h1 : InOrder r r1 0 first) (hg1 : Grows r r1) (h2 : InOrder r1 r2 result rest)
    (hg2 : Grows r1 r2) (hu : Unique Slot.name r1.modules) :
    InOrder r r2 result (first ++ rest) where
  log := by
    rw [h2.log, h1.log, List.map_append, List.reverse_append, List.append_assoc]
  once := by
    rw [List.map_append]
    refine List.Nodup.append h1.once h2.once fun n hf hr => ?_
    obtain ⟨c, hc, rfl⟩ := List.mem_map.mp hf
    obtain ⟨o, ho, hn⟩ := List.mem_map.mp hr
    have hl := h1.live rfl c hc
    rw [← hn] at hl
    exact not_isLive_of_isCalm hu (h2.calm o ho) hl
  calm := by
    intro c hc
    rcases List.mem_append.mp hc with hc | hc
    · exact h1.calm c hc
    · exact hg1.isCalm (h2.calm c hc)
  ready := by
    intro c hc
    rcases List.mem_append.mp hc with hc | hc
    · exact h1.ready c hc
    · exact h2.ready c hc
  live := by
    intro hz c hc
    rcases List.mem_append.mp hc with hc | hc
    · exact hg2.isLive (h1.live rfl c hc)
    · exact h2.live hz c hc

end

theorem inits_acquire (r : Registry) (n : Name) : (module_acquire r n).1.inits = r.inits := by
  rcases module_acquire_cases r n with heq | ⟨_, _, _, _, _, _, heq⟩
  · rw [heq]
  · rw [heq]
    rfl

theorem inits_releaseAll (r : Registry) (n : List Name) : (releaseAll r n).inits = r.inits := by
  induction n generalizing r with
  | nil => rfl
  | cons nm n ih =>
    refine (ih (module_release r nm)).trans ?_
    unfold module_release
    split <;> rfl

theorem dependencyCalls_spec {load : Registry → Name → Registry × Int}
    {calls : Registry → Name → Option (List InitCall)} {n : Nat}
    (hl : ∀ r na held, Counted r held → Loaded r na held (load r na))
    (hcl : ∀ r na held, Counted r held → idle r = n →
      ∃ first, calls r na = some first ∧ InOrder r (load r na).1 (load r na).2 first)
    {r : Registry} {held : Name → Nat} {ac : List Name} (nm : List Name)
    (h : Counted r (hold held ac)) (hid : idle r = n) :
    let after := load_dependencies load r nm ac
    ∃ all, dependencyCalls load calls r nm = some all ∧ InOrder r after.1 after.2.2 all := by
  induction nm generalizing r ac with
  | nil => exact ⟨[], rfl, inOrder_nil rfl⟩
  | cons na nm ih =>
    obtain ⟨first, hfr, ho⟩ := hcl r na _ h hid
    have hs := hl r na _ h
    unfold load_dependencies dependencyCalls
    rw [hfr]
    dsimp only
    rcases hr1 : load r na with ⟨r1, result⟩
    rw [hr1] at hs ho
    dsimp only
    by_cases hfl : result ≠ 0
    · rw [if_pos hfl, if_pos hfl]
      exact ⟨first, rfl, ho.congr rfl fun hz => absurd hz (by simp)⟩
    rw [if_neg hfl, if_neg hfl]
    obtain rfl := not_not.mp hfl
    have hg := grows_acquire r1 na
    have hi := inits_acquire r1 na
    rcases hr2 : module_acquire r1 na with ⟨r2, rs2⟩
    rw [hr2] at hg hi
    dsimp only
    by_cases hf : rs2 ≠ 0
    · rw [if_pos hf, if_pos hf]
      obtain rfl := module_acquire_fails hr2 hf
      exact ⟨first, rfl, ho.congr rfl fun hz => absurd hz (by simp)⟩
    rw [if_neg hf, if_neg hf]
    obtain rfl := not_not.mp hf
    have hc := hs.counted.acquire hr2
    have hgr := (load_dependencies_counted hl nm hc).2.1
    obtain ⟨all, hal, hr⟩ := ih hc ((hs.grows.trans hg).idle.trans hid)
    rw [hal]
    have ha : InOrder r r2 0 first :=
      ho.congr hi fun _ c hca => hg.isLive (ho.live rfl c hca)
    exact ⟨first ++ all, rfl,
      ha.append (hs.grows.trans hg) hr hgr hc.unique⟩

/-! ## One load -/

section
variable {r r1 : Registry} {position : Nat} {slot : Slot} {result : Int} {calls : List InitCall}

theorem InOrder.unmark (hu : Unique Slot.name r.modules) (hs : r.modules[position]? = some slot)
    (h : InOrder (r.setState position .LOADING) r1 result calls) :
    InOrder r r1 result calls ∧ ∀ c ∈ calls, c.name ≠ slot.name := by
  have ho : ∀ c ∈ calls, IsCalm r c.descriptor ∧ c.name ≠ slot.name := by
    intro c hc
    obtain ⟨o, hm, hd, hcl⟩ := h.calm c hc
    rcases (mem_setState hu hs).mp hm with rfl | ⟨hm, hne⟩
    · exact absurd rfl hcl.1
    · refine ⟨⟨o, hm, hd, hcl⟩, ?_⟩
      unfold InitCall.name
      rw [← hd]
      exact hne
  exact ⟨⟨h.log, h.once, fun c hc => (ho c hc).1, h.ready, h.live⟩,
    fun c hc => (ho c hc).2⟩

theorem inits_load_end (r : Registry) (position : Nat) (result : Int) (ac : List Name) :
    (load_end (if result ≠ 0 then releaseAll r ac else r) position result).inits = r.inits := by
  show (if result ≠ 0 then releaseAll r ac else r).inits = r.inits
  grind [inits_releaseAll]

theorem isLive_load_end (hu : Unique Slot.name r.modules) (hs : r.modules[position]? = some slot)
    {name : Name} (hne : name ≠ slot.name) (h : IsLive r name) (ac : List Name) :
    IsLive (load_end (if (0 : Int) ≠ 0 then releaseAll r ac else r) position 0) name := by
  rw [if_neg (by decide)]
  exact (isLive_setState hu hs).mpr (Or.inr ⟨hne, h⟩)

end

theorem initCalls_spec (rs : Nat → Int) (d : Nat) (r : Registry) (n : Name) (held : Name → Nat)
    (h : Counted r held) (hdp : idle r < d) :
    ∃ calls, initCalls rs d r n = some calls ∧
      InOrder r (load_at rs d r n).1 (load_at rs d r n).2 calls := by
  induction d generalizing r n held with
  | zero => omega
  | succ d ih =>
    have hl := load_at_counted rs (d + 1) r n held h
    unfold initCalls
    unfold load_at at hl ⊢
    rcases hb : load_begin r n with _ | _ | ⟨position, ds, marked⟩
    · exact ⟨[], rfl, inOrder_nil rfl⟩
    · exact ⟨[], rfl, inOrder_nil rfl⟩
    rw [hb] at hl
    dsimp only at hl ⊢
    obtain ⟨slot, hs, rfl, hcm, rfl, rfl⟩ := load_begin_begun hb
    have hid := idle_mark hs hcm
    have hcn : Counted (r.setState position .LOADING) (hold held []) := by
      rw [hold_nil]
      exact h.setState_idle hs hcm.2.2 (by decide)
    obtain ⟨hc2, hg2, ha⟩ :=
      load_dependencies_counted (load_at_counted rs d) slot.descriptor.dependencyNames hcn
    obtain ⟨calls, hcs, ho⟩ := dependencyCalls_spec (load_at_counted rs d)
      (fun r n held hc hn => ih r n held hc (by omega)) slot.descriptor.dependencyNames hcn rfl
    rw [hcs]
    rcases hr2 : load_dependencies (load_at rs d) (r.setState position .LOADING)
      slot.descriptor.dependencyNames [] with ⟨r2, acquired, result2⟩
    rw [hr2] at hc2 hg2 ha ho hl
    dsimp only at hc2 hg2 ha ho hl ⊢
    obtain ⟨ho, hot⟩ := ho.unmark h.unique hs
    obtain ⟨s2, hs2, hd2, -⟩ := hg2.loading (getElem?_update_self hs) rfl
    have hn2 : s2.name = slot.name := congrArg Descriptor.name hd2
    rw [← hn2] at hot
    refine ⟨_, rfl, ?_⟩
    dsimp only
    by_cases hf : result2 ≠ 0
    · -- A dp has failed: there is no c of its own.
      have how : ¬ (result2 = 0 ∧ slot.descriptor.init ≠ 0) := fun hbt => hf hbt.1
      rw [if_neg how, if_neg hf]
      exact ho.congr (inits_load_end r2 position result2 acquired) fun hz => absurd hz hf
    obtain rfl := not_not.mp hf
    rw [if_pos rfl] at hl ⊢
    unfold call_init at hl ⊢
    by_cases hi : slot.descriptor.init = 0
    · have how : ¬ ((0 : Int) = 0 ∧ slot.descriptor.init ≠ 0) := fun hbt => hbt.2 hi
      rw [if_neg how, if_pos hi]
      refine ho.congr (inits_load_end r2 position 0 acquired) fun _ c hcl => ?_
      exact isLive_load_end hc2.unique hs2 (hot c hcl) (ho.live rfl c hcl) acquired
    have how : (0 : Int) = 0 ∧ slot.descriptor.init ≠ 0 := ⟨rfl, hi⟩
    rw [if_neg hi] at hl ⊢
    rw [if_pos how]
    dsimp only at hl ⊢
    refine ho.call (inits_load_end _ position _ acquired) ?_ ?_ ?_ ?_
    · intro hm
      obtain ⟨c, hcl, hsm⟩ := List.mem_map.mp hm
      exact hot c hcl (hsm.trans hn2.symm)
    · exact ⟨slot, List.mem_of_getElem? hs, rfl, hcm⟩
    · -- Each dp is held, and only live modules are.
      intro dp hd
      apply hc2.held
      rw [ha rfl, List.append_nil]
      exact Nat.add_pos_right _ (List.count_pos_iff.mpr (List.mem_reverse.mpr hd))
    · intro hz
      refine ⟨hl.live hz, fun c hcl => ?_⟩
      rw [hz]
      exact isLive_load_end (r := { r2 with inits := slot.descriptor.name :: r2.inits }) hc2.unique hs2
        (hot c hcl) (ho.live rfl c hcl) acquired

/-! ## Between the calls nothing is under way -/

def AtRest (r : Registry) : Prop := ∀ slot ∈ r.modules, slot.state ≠ .LOADING ∧ slot.state ≠ .UNLOADING

section
variable {r r' : Registry}

theorem AtRest.grows (h : AtRest r) (hg : Grows r r') : AtRest r' := by
  intro s' hm'
  obtain ⟨position, hs'⟩ := List.mem_iff_getElem?.mp hm'
  obtain ⟨slot, hsl, _, hsm | ⟨_, hs | hs⟩⟩ := hg.back hs'
  · rw [hsm]
    exact h slot (List.mem_of_getElem? hsl)
  · rw [hs]
    decide
  · rw [hs]
    decide

theorem AtRest.subset (h : AtRest r) (hs : r'.modules ⊆ r.modules) : AtRest r' :=
  fun slot hm => h slot (hs hm)

theorem AtRest.register_descriptor (h : AtRest r) (d : Option Descriptor) (im i : UInt64)
    (o l : Bool) : AtRest (register_descriptor r d im i o l).1 := by
  unfold module.register_descriptor
  split
  · exact h
  split
  · exact h
  split
  · exact h
  intro slot hm
  rcases List.mem_append.mp hm with hm | hm
  · exact h slot hm
  grind

theorem AtRest.module_unload (h : AtRest r) {n : Name} {result : Int}
    (hu : module_unload r n = some (r', result)) : AtRest r' := by
  unfold module.module_unload at hu
  split at hu
  · cases hu
    exact h
  next position slot marked hbg =>
  obtain ⟨hsl, _, _, _, rfl⟩ := unload_begin_some hbg
  have hg := grows_releaseAll (r.setState position .UNLOADING) slot.descriptor.dependencyNames
  have hlt := (List.getElem?_eq_some_iff.mp hsl).1
  rw [← length_setState r position .UNLOADING, ← hg.length] at hlt
  unfold remove_at at hu
  rw [if_neg (List.ne_nil_of_length_pos (by omega)), if_pos hlt] at hu
  have hm : r'.modules =
      (releaseAll (r.setState position .UNLOADING) slot.descriptor.dependencyNames).modules.eraseIdx position := by
    have hf := congrArg Prod.fst (Option.some.inj hu)
    dsimp only at hf
    rw [← hf]
    split <;> rfl
  intro l hmm
  rw [hm] at hmm
  obtain ⟨o, hne, hl⟩ := List.mem_eraseIdx_iff_getElem?.mp hmm
  obtain ⟨bf, hb, _, hsm | ⟨_, hs | hs⟩⟩ := hg.back hl
  · rw [hsm]
    rw [show (r.setState position .UNLOADING).modules[o]? = r.modules[o]? from
      getElem?_update_ne hne.symm] at hb
    exact h bf (List.mem_of_getElem? hb)
  · rw [hs]
    decide
  · rw [hs]
    decide

theorem AtRest.elf_remove (h : AtRest r) (n : Name) : AtRest (elf_remove r n) := by
  unfold module.elf_remove
  split
  · exact h
  · exact h.subset (List.eraseIdx_subset)

theorem AtRest.elf_register {held : Name → Nat} (h : AtRest r) (hc : Counted r held) (rs : Nat → Int)
    (d : Descriptor) (ac al : UInt64) :
    AtRest (elf_register rs r d ac al).1 := by
  have hr := h.register_descriptor (some d) ac al true false
  have hcounted' := hc.register_descriptor (some d) ac al true false
    (fun _ _ hlv => by cases hlv)
  unfold module.elf_register
  split
  next r1 result hr1 =>
  rw [hr1] at hr hcounted'
  split
  · exact hr.subset (List.Subset.refl _)
  have hl := hr.grows (hcounted'.module_load rs d.name).grows
  split
  next r2 rs2 hr2 =>
  rw [hr2] at hl
  split
  · exact (hl.elf_remove _).subset (List.Subset.refl _)
  · exact hl

theorem AtRest.module_elf_load {held : Name → Nat} (h : AtRest r) (hc : Counted r held) (rs : Nat → Int)
    (i : Image) (e : List Export) (kcalloc : UInt64 → Option UInt64) (m : flat_memory.Mem)
    {after : Registry × Int × Name}
    (hl : module_elf_load rs r i e kcalloc m = some after) : AtRest after.1 := by
  rcases module_elf_load_cases hl with rfl | ⟨d, al, s, _, rfl⟩
  · exact h
  · have ha : Counted { r with heap := al :: r.heap } held := hc.congr rfl
    have hr : AtRest { r with heap := al :: r.heap } := h
    exact hr.elf_register ha rs d al s

end

theorem AtRest.step {s s' : System} (h : AtRest s.registry) (hc : Counted s.registry s.held)
    (rs : Nat → Int) {op : Op} (hs : s.step rs op = some s') : AtRest s'.registry := by
  cases op with
  | register d =>
    cases hs
    exact h.register_descriptor d 0 0 false false
  | register_builtin d =>
    cases hs
    show AtRest (module_register_builtin s.registry d).1
    unfold module_register_builtin
    split
    · exact h
    split
    · exact h
    · exact h.register_descriptor _ 0 0 false true
  | load n =>
    cases hs
    exact h.grows (hc.module_load rs n).grows
  | unload n =>
    unfold System.step at hs
    dsimp only at hs
    obtain ⟨⟨r', result⟩, hu, rfl⟩ := Option.map_eq_some_iff.mp hs
    exact h.module_unload hu
  | acquire n =>
    cases hs
    exact h.grows (grows_acquire s.registry n)
  | release n =>
    cases hs
    exact h.grows (grows_release s.registry n)
  | elf_load i e kcalloc m =>
    unfold System.step at hs
    dsimp only at hs
    obtain ⟨after, hl, rfl⟩ := Option.map_eq_some_iff.mp hs
    exact h.module_elf_load hc rs i e kcalloc m hl

theorem AtRest.run {s s' : System} (h : AtRest s.registry) (hc : Counted s.registry s.held)
    (rs : Nat → Int) {ops : List Op} (hrn : s.run rs ops = some s') : AtRest s'.registry := by
  -- the counts go along: a load ends with no slot under way only when they are right
  let invariant (s : System) : Prop := AtRest s.registry ∧ Counted s.registry s.held
  have hi : invariant s' := by
    refine System.run_invariant ?_ ⟨h, hc⟩ hrn
    rintro s op s' ⟨hrs, hr⟩ ha hs
    exact ⟨hrs.step hr rs hs, hr.step rs ha hs⟩
  exact hi.1

theorem start_atRest : AtRest start.registry := fun _ hm => absurd hm List.not_mem_nil

/-! ## Modules that cannot be loaded -/

def Names (r : Registry) (a b : Name) : Prop :=
  ∃ slot ∈ r.modules, slot.name = a ∧ b ∈ slot.descriptor.dependencyNames

def IsRegistered (r : Registry) (name : Name) : Prop := ∃ slot ∈ r.modules, slot.name = name

/-- The dependencies of the module, taken together, have a cycle or an unknown name. -/
def Stuck (r : Registry) (name : Name) : Prop :=
  (∃ other, Relation.ReflTransGen (Names r) name other ∧ Relation.TransGen (Names r) other other) ∨
    ∃ other, Relation.TransGen (Names r) name other ∧ ¬ IsRegistered r other

section
variable {r r' : Registry} {held : Name → Nat} {a b : Name}

theorem Grows.names (h : Grows r r') (hab : Names r a b) : Names r' a b := by
  obtain ⟨slot, hm, rfl, hb⟩ := hab
  obtain ⟨position, hs⟩ := List.mem_iff_getElem?.mp hm
  obtain ⟨s', hs', hd, -⟩ := h.slots position slot hs
  refine ⟨s', List.mem_of_getElem? hs', congrArg Descriptor.name hd, ?_⟩
  rw [hd]
  exact hb

theorem Grows.isRegistered (h : Grows r r') (hl : IsLive r' a) : IsRegistered r a := by
  obtain ⟨s', hm', rfl, -⟩ := hl
  obtain ⟨position, hs'⟩ := List.mem_iff_getElem?.mp hm'
  obtain ⟨slot, hs, hd, -⟩ := h.back hs'
  exact ⟨slot, List.mem_of_getElem? hs, (congrArg Descriptor.name hd).symm⟩

theorem Counted.dependsOn (h : Counted r held) (hl : IsLive r a) (hab : Names r a b) : DependsOn r a b := by
  obtain ⟨slot, hm, rfl, hs⟩ := hl
  obtain ⟨o, ho, hn, hb⟩ := hab
  obtain rfl := h.unique.eq_of_key ho hm hn
  exact ⟨o, hm, rfl, hs, hb⟩

theorem Counted.live_reaches (h : Counted r held) (hl : IsLive r a)
    (hab : Relation.ReflTransGen (Names r) a b) : IsLive r b := by
  induction hab with
  | refl => exact hl
  | tail _ hbc ih => exact h.live _ _ (h.dependsOn ih hbc)

theorem Counted.dependsOn_reaches (h : Counted r held) (hl : IsLive r a)
    (hab : Relation.TransGen (Names r) a b) : Relation.TransGen (DependsOn r) a b := by
  induction hab with
  | single hab => exact .single (h.dependsOn hl hab)
  | tail hac hcb ih => exact ih.tail (h.dependsOn (h.live_reaches hl hac.to_reflTransGen) hcb)

theorem Counted.not_stuck (h : Counted r' held) (hg : Grows r r') (hl : IsLive r' a) : ¬ Stuck r a := by
  rintro (⟨o, hr, hc⟩ | ⟨o, hr, hu⟩)
  · have hreach' := hr.lift id fun _ _ => hg.names
    have hcycle' := hc.lift id fun _ _ => hg.names
    exact h.acyclic o (h.dependsOn_reaches (h.live_reaches hl hreach') hcycle')
  · have hreach' := hr.lift id fun _ _ => hg.names
    exact hu (hg.isRegistered (h.live_reaches hl hreach'.to_reflTransGen))

theorem Counted.module_load_live (h : Counted r held) (rs : Nat → Int) (hl : IsLive r a) :
    (module.module_load rs r a).2 = 0 := by
  obtain ⟨slot, hm, rfl, hst⟩ := hl
  obtain ⟨position, hs⟩ := List.mem_iff_getElem?.mp hm
  have hf : find_slot r slot.name = some position := h.unique.place_eq hs
  grind [load_begin, module.module_load, load_at]

end

/-! ## Loads in order -/

/-- A load of `name` calls `init` in this order: nothing is called twice, and a module is called
when its dependencies are live. -/
structure LoadsInOrder (results : Nat → Int) (r : Registry) (name : Name) (calls : List InitCall) : Prop where
  log : (module_load results r name).1.inits = (calls.map InitCall.name).reverse ++ r.inits
  once : (calls.map InitCall.name).Nodup
  ready : ∀ call ∈ calls, ∀ dependency ∈ call.descriptor.dependencyNames, IsLive call.registry dependency
  settled : ∀ slot ∈ (module_load results r name).1.modules, slot.state ≠ .LOADING
  result : (module_load results r name).2 = 0 ↔ IsLive (module_load results r name).1 name
  stuck : ∀ other, Stuck r other → ¬ IsLive (module_load results r name).1 other

/-- After any run of calls a load ends within one level for each slot, and it loads in order. -/
theorem modules_load_in_order (results : Nat → Int) (ops : List Op) (s : System)
    (hrun : start.run results ops = some s) (name : Name) :
    ∃ calls, initCalls results (MODULE_LIMIT + 1) s.registry name = some calls ∧
      LoadsInOrder results s.registry name calls := by
  have hcounted := start_counted.run results hrun
  have hrest := start_atRest.run start_counted results hrun
  have hloaded := hcounted.module_load results name
  have hidle := idle_le s.registry
  have hsize := hcounted.size
  obtain ⟨calls, hcalls, horder⟩ := initCalls_spec results (MODULE_LIMIT + 1) s.registry name s.held hcounted (by omega)
  refine ⟨calls, hcalls, ?_⟩
  constructor
  case log => exact horder.log
  case once => exact horder.once
  case ready => exact horder.ready
  case settled => exact fun slot hmem => (hrest.grows hloaded.grows slot hmem).1
  case result =>
    refine ⟨hloaded.live, fun hlive => ?_⟩
    by_contra hne
    exact hloaded.dead hne (fun hbefore => hne (hcounted.module_load_live results hbefore)) hlive
  case stuck =>
    intro other hstuck hlive
    exact hloaded.counted.not_stuck hloaded.grows hlive hstuck

/-- Module 65 names 66 and 67, 66 names 67, and modules 68 and 69 name each other. -/
def fiveModules : List Op :=
  [.register (some (plain [65] [some [66], some [67]])), .register (some (plain [66] [some [67]])),
    .register (some (plain [67] [])), .register (some (plain [68] [some [69]])),
    .register (some (plain [69] [some [68]])), .load (some [68])]

theorem five_modules_load_in_order :
    ∃ s calls, start.run (fun _ => 0) fiveModules = some s ∧
      initCalls (fun _ => 0) (MODULE_LIMIT + 1) s.registry (some [65]) = some calls ∧
      calls.map InitCall.name = [some [67], some [66], some [65]] ∧
      LoadsInOrder (fun _ => 0) s.registry (some [65]) calls := by
  have hrun : (start.run (fun _ => 0) fiveModules).map (fun s =>
      (initCalls (fun _ => 0) (MODULE_LIMIT + 1) s.registry (some [65])).map (List.map InitCall.name)) =
        some (some [some [67], some [66], some [65]]) := by
    decide +kernel
  obtain ⟨s, hs, hnames⟩ := Option.map_eq_some_iff.mp hrun
  obtain ⟨calls, hcalls, horder⟩ := modules_load_in_order _ _ s hs (some [65])
  rw [hcalls] at hnames
  exact ⟨s, calls, hs, hcalls, Option.some.inj hnames, horder⟩

end mvh.module
