-- The export table of `module.c` beside the module table.
import MvhKernel.ModuleRuns
import MvhKernel.Runs

open flat_memory runs

namespace mvh.module

def EXPORT_LIMIT : Nat := 128

def module_export_symbol (exports : List Export) (name : Name) (address : UInt64) (owner : Name) :
    List Export × Int :=
  match name with
  | none => (exports, -1)
  | some name =>
    if name = [] ∨ address = 0 then (exports, -1)
    else if exports.any (fun entry => entry.name == name) then (exports, -1)
    else if exports.length = EXPORT_LIMIT then (exports, -1)
    else (exports ++ [{ name, address, owner }], 0)

/-! ## What an unload needs -/

/-- The module is there and live, nobody holds it, and it is not built in. -/
def Removable (r : Registry) (name : Name) : Prop :=
  ∃ position slot, find_slot r name = some position ∧ r.modules[position]? = some slot ∧
    slot.state = .LIVE ∧ slot.references = 0 ∧ slot.descriptor.flags &&& MVH_MODULE_BUILTIN = 0

theorem unload_begin_removable {r : Registry} {n : Name} (h : Removable r n) :
    ∃ p s, r.modules[p]? = some s ∧
      unload_begin r n = some (p, s, r.setState p .UNLOADING) := by
  obtain ⟨p, s, hfn, hs, hl, hfr, hf⟩ := h
  refine ⟨p, s, hs, ?_⟩
  unfold unload_begin
  rw [hfn]
  dsimp only
  rw [hs]
  dsimp only
  rw [if_neg]
  · rfl
  · simp [hl, hfr, hf]

theorem unload_begin_not_removable {r : Registry} {n : Name} (h : ¬ Removable r n) :
    unload_begin r n = none := by
  cases hb : unload_begin r n with
  | none => rfl
  | some f =>
    unfold unload_begin at hb
    split at hb
    · cases hb
    next p hf =>
    split at hb
    · cases hb
    next s hs =>
    split at hb
    · cases hb
    next hc =>
    rw [not_or, not_or, not_not, not_not, not_not] at hc
    exact absurd ⟨p, s, hf, hs, hc.1, hc.2.1, hc.2.2⟩ h

theorem module_unload_removable {r : Registry} {n : Name} (h : Removable r n) :
    ∃ r', module_unload r n = some (r', 0) := by
  obtain ⟨p, s, hs, hb⟩ := unload_begin_removable h
  have hg := grows_releaseAll (r.setState p .UNLOADING) s.descriptor.dependencyNames
  have hl : p < (releaseAll (r.setState p .UNLOADING)
      s.descriptor.dependencyNames).modules.length := by
    rw [hg.length, length_setState]
    exact (List.getElem?_eq_some_iff.mp hs).1
  unfold module_unload remove_at
  rw [hb]
  dsimp only
  rw [if_neg (List.ne_nil_of_length_pos (by omega)), if_pos hl]
  exact ⟨_, rfl⟩

theorem module_unload_not_removable {r : Registry} {n : Name} (h : ¬ Removable r n) :
    module_unload r n = some (r, -1) := by
  unfold module_unload
  rw [unload_begin_not_removable h]

/-! ## Runs -/

/-- The two tables, all that was ever exported, and the modules that were unloaded and for
which nothing was exported since. -/
structure Tables where
  registry : Registry
  exports : List Export
  exported : List Export
  gone : List Name

inductive TableCall where
  | export_symbol (name : Name) (address : UInt64) (owner : Name)
  | elf_load (image : Image) (kcalloc : UInt64 → Option UInt64) (memory : Mem)
  | load (name : Name)
  | unload (name : Name)

def Tables.export_symbol (t : Tables) (name : Name) (address : UInt64) (owner : Name) : Tables :=
  match module_export_symbol t.exports name address owner with
  | (exports, result) =>
    if result = 0 then
      { t with
        exports
        exported := t.exported ++ [{ name := name.getD [], address, owner }]
        gone := t.gone.filter fun other => other ≠ owner }
    else { t with exports }

def Tables.call (results : Nat → Int) (t : Tables) : TableCall → Option Tables
  | .export_symbol name address owner => some (t.export_symbol name address owner)
  | .elf_load image kcalloc memory =>
    (module_elf_load results t.registry image t.exports kcalloc memory).map fun after =>
      { t with registry := after.1 }
  | .load name => some { t with registry := (module_load results t.registry name).1 }
  | .unload name =>
    match module_unload t.registry name with
    | none => none
    | some (registry, result) =>
      some { t with registry, gone := if result = 0 then name :: t.gone else t.gone }

def callStep (results : Nat → Int) (t : Option Tables) (call : TableCall) : Option Tables :=
  t.bind fun t => t.call results call

/-- No name resolves to an address that was exported for a module that is gone. -/
def Tables.Quiet (t : Tables) : Prop :=
  ∀ owner ∈ t.gone, ∀ entry ∈ t.exported, entry.owner = owner →
    ∀ name, module_resolve_symbol t.exports name ≠ entry.address

def Quiet (t : Option Tables) : Prop := ∀ tables, t = some tables → tables.Quiet

def Unowned (t : Option Tables) (call : TableCall) : Prop :=
  ∀ tables name, t = some tables → call = .unload name → Removable tables.registry name →
    ∀ entry ∈ tables.exports, entry.owner ≠ name

/-- What is exported stays, under a name of its own, and modules that are gone own nothing. -/
structure Settled (t : Tables) : Prop where
  kept : t.exported = t.exports
  unique : keyed_list.Unique Export.name t.exports
  unowned : ∀ owner ∈ t.gone, ∀ entry ∈ t.exports, entry.owner ≠ owner

section
variable {t t' : Tables}

theorem module_export_symbol_cases (exports : List Export) (name : Name) (address : UInt64)
    (owner : Name) :
    module_export_symbol exports name address owner = (exports, -1) ∨
      ∃ text, name = some text ∧ (∀ entry ∈ exports, entry.name ≠ text) ∧
        module_export_symbol exports name address owner =
          (exports ++ [{ name := text, address, owner }], 0) := by
  unfold module_export_symbol
  grind

theorem Settled.export_symbol (h : Settled t) (name : Name) (address : UInt64) (owner : Name) :
    Settled (t.export_symbol name address owner) := by
  unfold Tables.export_symbol
  rcases module_export_symbol_cases t.exports name address owner with heq | ⟨text, rfl, hnew, heq⟩
  · rw [heq]
    exact h
  · rw [heq]
    refine ⟨?_, ?_, ?_⟩
    · simp [h.kept]
    · exact h.unique.append hnew
    · intro other hother entry hentry
      obtain ⟨hgone, hne⟩ := List.mem_filter.mp hother
      rcases List.mem_append.mp hentry with hentry | hentry
      · exact h.unowned other hgone entry hentry
      grind

theorem Settled.registry (h : Settled t) (registry : Registry) :
    Settled { t with registry } := ⟨h.kept, h.unique, h.unowned⟩

theorem call_unload {name : Name} {registry : Registry} {result : Int} (results : Nat → Int)
    (h : module_unload t.registry name = some (registry, result)) :
    t.call results (.unload name) =
      some { t with registry, gone := if result = 0 then name :: t.gone else t.gone } := by
  unfold Tables.call
  dsimp only
  rw [h]

theorem Settled.call (h : Settled t) (results : Nat → Int) {call : TableCall}
    (hunowned : Unowned (some t) call) (hcall : t.call results call = some t') : Settled t' := by
  cases call with
  | export_symbol name address owner =>
    obtain rfl := Option.some.inj hcall
    exact h.export_symbol name address owner
  | elf_load image kcalloc memory =>
    obtain ⟨after, -, rfl⟩ := Option.map_eq_some_iff.mp hcall
    exact h.registry after.1
  | load name =>
    obtain rfl := Option.some.inj hcall
    exact h.registry _
  | unload name =>
    by_cases hremovable : Removable t.registry name
    · obtain ⟨r', hunload⟩ := module_unload_removable hremovable
      rw [call_unload results hunload] at hcall
      obtain rfl := Option.some.inj hcall
      refine ⟨h.kept, h.unique, ?_⟩
      intro owner howner entry hentry
      rcases List.mem_cons.mp howner with rfl | hgone
      · exact hunowned t owner rfl rfl hremovable entry hentry
      · exact h.unowned owner hgone entry hentry
    · rw [call_unload results (module_unload_not_removable hremovable)] at hcall
      obtain rfl := Option.some.inj hcall
      exact h

theorem Settled.quiet (h : Settled t) : t.Quiet := by
  intro o ho e he hs
  rw [h.kept] at he
  exact absurd hs (h.unowned o ho e he)

theorem resolve_of_mem {e : List Export} (h : keyed_list.Unique Export.name e)
    {en : Export} (he : en ∈ e) :
    module_resolve_symbol e en.name = en.address := by
  unfold module_resolve_symbol
  cases hf : e.find? fun o => o.name == en.name with
  | none => grind
  | some o =>
    have hnm : o.name = en.name := by grind
    rw [h.eq_of_key (List.mem_of_find?_eq_some hf) he hnm]

theorem Settled.needs (h : Settled t) (r : Nat → Int) {call : TableCall}
    (hq : Quiet (t.call r call)) : Unowned (some t) call := by
  rintro t n heq rfl hr e he ho
  obtain rfl := Option.some.inj heq
  obtain ⟨r', hu⟩ := module_unload_removable hr
  have ha := hq _ (call_unload r hu)
  refine ha n List.mem_cons_self e ?_ ho e.name (resolve_of_mem h.unique he)
  simpa [h.kept] using he

end

/-- No export dangles in a run exactly when every module that is unloaded owns no export:
the table of exports only grows. -/
theorem exports_outlive_their_owners (results : Nat → Int) (registry : Registry) (calls : List TableCall) :
    Always (callStep results) Quiet (some ⟨registry, [], [], []⟩) calls ↔
      Each (callStep results) Unowned (some ⟨registry, [], [], []⟩) calls := by
  have hstart : ∀ t, some (⟨registry, [], [], []⟩ : Tables) = some t → Settled t := by
    intro t ht
    obtain rfl := Option.some.inj ht
    exact ⟨rfl, List.nodup_nil, nofun⟩
  refine always_iff_each (fun s => ∀ t, s = some t → Settled t) ?_ ?_ ?_ hstart calls
  · intro s call h hunowned t' ht'
    obtain ⟨t, rfl, hcall⟩ := Option.bind_eq_some_iff.mp ht'
    exact (h t rfl).call results hunowned hcall
  · intro s h t ht
    exact (h t ht).quiet
  · intro s call h hquiet
    cases s with
    | none => intro t name heq; cases heq
    | some t => exact (h t rfl).needs results hquiet

/-- Module 65 is registered. -/
def exportedAndUnloaded : List TableCall :=
  [.load (some [65]), .export_symbol (some [102]) 0x1000 (some [65]), .unload (some [65])]

theorem an_export_dangles :
    ¬ Always (callStep fun _ => 0) Quiet
      (some ⟨(module_register module_init (some (plain [65] []))).1, [], [], []⟩)
      exportedAndUnloaded := by
  intro halways
  have hlast := halways.last
  have hrun : (run (callStep fun _ => 0)
      (some ⟨(module_register module_init (some (plain [65] []))).1, [], [], []⟩)
      exportedAndUnloaded).map (fun t => (t.gone, t.exported.map fun entry => (entry.address, entry.owner),
        module_resolve_symbol t.exports [102])) =
      some ([some [65]], [(0x1000, some [65])], 0x1000) := by
    decide +kernel
  obtain ⟨t, ht, hseen⟩ := Option.map_eq_some_iff.mp hrun
  obtain ⟨hgone, hexported, hresolve⟩ : t.gone = [some [65]] ∧
      t.exported.map (fun entry => (entry.address, entry.owner)) = [(0x1000, some [65])] ∧
      module_resolve_symbol t.exports [102] = 0x1000 := by
    simpa using hseen
  obtain ⟨entry, hentry, hsame⟩ := List.exists_of_mem_map
    (show ((0x1000 : UInt64), (some [65] : Name)) ∈ t.exported.map (fun entry => (entry.address, entry.owner)) by
      rw [hexported]; exact List.mem_singleton_self _)
  obtain ⟨haddress, howner⟩ := Prod.mk.inj hsame
  refine hlast t ht (some [65]) ?_ entry hentry howner [102] (hresolve.trans haddress.symm)
  rw [hgone]
  exact List.mem_singleton_self _

end mvh.module
