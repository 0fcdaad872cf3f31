-- The page allocator and the page tables together.
import MvhKernel.Acpi
import MvhKernel.Framebuffer
import MvhKernel.Pci
import MvhKernel.VmmInit

open flat_memory table_tree masks runs bitmap

namespace mvh.vmm

open pmm acpi

/-! ## The allocator as the walk sees it -/

/-- The allocator after an allocation: more pages may be in use. -/
structure Marks (s s' : Pmm) (extra : Nat → Prop) : Prop where
  consistent : Consistent s'
  managed : s'.managed_pages = s.managed_pages
  reserved : s'.reserved_pages = s.reserved_pages
  used : ∀ f, s'.Used f ↔ s.Used f ∨ extra f

theorem alloc_marks {s : Pmm} (h : Consistent s) (c : UInt32) :
    (∃ s', pmm_alloc_pages s c = some (0, s') ∧ Marks s s' (fun _ => False) ∧
      (c = 0 ∨ ∀ st, s.reserved_pages.toNat ≤ st →
        st + c.toNat ≤ s.managed_pages.toNat → ¬ FreeRun s.page_bitmap st c.toNat)) ∨
    ∃ (st : UInt32) (s' : Pmm), pmm_alloc_pages s c = some (st.toUInt64 * 4096, s') ∧
      Marks s s' (fun f => st.toNat ≤ f ∧ f < st.toNat + c.toNat) ∧
      s.reserved_pages.toNat ≤ st.toNat ∧ st.toNat + c.toNat ≤ s.managed_pages.toNat ∧
      FreeRun s.page_bitmap st.toNat c.toNat ∧
      ∀ first, s.reserved_pages.toNat ≤ first → first < st.toNat →
        ¬ FreeRun s.page_bitmap first c.toNat := by
  obtain ⟨p, s', ha, hc, hm, hr⟩ := h.alloc c
  rcases pmm_alloc_pages_eq h.managed_le h.reserved_le c with
    ⟨heq, hn⟩ | ⟨st, b, _, heq, hl, he, hfr, hf, hb⟩
  · obtain ⟨rfl, rfl⟩ := Prod.mk.inj (Option.some.inj (ha.symm.trans heq))
    exact Or.inl ⟨_, heq, ⟨hc, hm, hr, fun f => (or_false _).symm ▸ Iff.rfl⟩,
      hn⟩
  · obtain ⟨rfl, rfl⟩ := Prod.mk.inj (Option.some.inj (ha.symm.trans heq))
    refine Or.inr ⟨st, _, heq, ⟨hc, hm, hr, fun f => ?_⟩, hl, he, hfr,
      hf⟩
    show test b f = true ↔ test s.page_bitmap f = true ∨ _
    grind

theorem allocPage_spec (m : Mem) {s : Pmm} (h : Consistent s) :
    (∃ s', allocPage m s = (0, s') ∧ Marks s s' (fun _ => False) ∧
      ∀ f, s.reserved_pages.toNat ≤ f → f < s.managed_pages.toNat → s.Used f) ∨
    ∃ (st : UInt32) (s' : Pmm), allocPage m s = (st.toUInt64 * 4096, s') ∧
      Marks s s' (· = st.toNat) ∧ s.reserved_pages.toNat ≤ st.toNat ∧
      st.toNat < s.managed_pages.toNat ∧ ¬ s.Used st.toNat ∧
      ∀ first, s.reserved_pages.toNat ≤ first → first < st.toNat → s.Used first := by
  have ho : (1 : UInt32).toNat = 1 := rfl
  have hr (f : Nat) : FreeRun s.page_bitmap f 1 ↔ ¬ s.Used f := by grind [FreeRun, Pmm.Used]
  unfold allocPage
  rcases alloc_marks h 1 with ⟨s', heq, hm, hn⟩ | ⟨st, s', heq, hm, hl, he, hf, hfr⟩
  · grind
  grind

/-- How the allocator fits to the tables: every table is a page in use, and so is every page that
is held, and no page that is held is a table. -/
structure Fits (base : Pmm) (held used : Nat → Prop) (pmm : Pmm) : Prop where
  consistent : Consistent pmm
  managed : pmm.managed_pages = base.managed_pages
  reserved : pmm.reserved_pages = base.reserved_pages
  tables : ∀ f, used f → pmm.Used f
  apart : ∀ f, held f → pmm.Used f ∧ ¬ used f

section
variable {base : Pmm} {held used : Nat → Prop} {pmm pmm' : Pmm} {extra : Nat → Prop}

theorem Fits.marks (h : Fits base held used pmm) (hm : Marks pmm pmm' extra) :
    Fits base held used pmm' where
  consistent := hm.consistent
  managed := hm.managed.trans h.managed
  reserved := hm.reserved.trans h.reserved
  tables f hf := (hm.used f).mpr (Or.inl (h.tables f hf))
  apart f hf := ⟨(hm.used f).mpr (Or.inl (h.apart f hf).1), (h.apart f hf).2⟩

theorem fits_shrinks (base : Pmm) (held : Nat → Prop) : Shrinks (Fits base held) :=
  fun _ _ _ h hfw => ⟨h.consistent, h.managed, h.reserved, fun f hf => h.tables f (hfw f hf),
    fun f hf => ⟨(h.apart f hf).1, fun hu => (h.apart f hf).2 (hfw f hu)⟩⟩

theorem in_mask_of_start {st : UInt32} (h : st.toNat < 1048576) :
    In (st.toUInt64 * 4096) PAGE_MASK := by
  rw [in_page_mask_iff, toNat_address]
  omega

theorem page_of_start (st : UInt32) : (st.toUInt64 * 4096).toNat / 4096 = st.toNat := by
  rw [toNat_address]
  omega

theorem supplies_allocPage (base : Pmm) (held : Nat → Prop) (r : Nat) :
    Supplies allocPage r (Fits base held) where
  shrinks := fits_shrinks base held
  refused m pmm h _ := by
    rcases allocPage_spec m h.consistent with ⟨s', heq, hm, _⟩ | ⟨st, s', heq, hm, _⟩
    · rw [heq]
      exact h.marks hm
    · rw [heq]
      exact h.marks hm
  aligned m pmm h := by
    rcases allocPage_spec m h.consistent with ⟨s', heq, _⟩ | ⟨st, s', heq, _, _, hh, _⟩
    · rw [heq]
      exact (by decide : In 0 PAGE_MASK)
    · rw [heq]
      exact in_mask_of_start (hh.trans_le h.consistent.managed_le)
  fresh m pmm h hgiven := by
    rcases allocPage_spec m h.consistent with ⟨s', heq, _⟩ | ⟨st, s', heq, _, _, _, hfr, _⟩
    · grind
    · rw [heq, page_of_start]
      exact fun hu => hfr (h.tables _ hu)
  given m pmm h hgiven := by
    rcases allocPage_spec m h.consistent with ⟨s', heq, _⟩ | ⟨st, s', heq, hm, _, _, hfr, _⟩
    · grind
    · rw [heq]
      simp only [page_of_start]
      have hn := h.marks hm
      refine ⟨hn.consistent, hn.managed, hn.reserved, ?_, ?_⟩
      · rintro f (hf | rfl)
        · exact hn.tables f hf
        · exact (hm.used _).mpr (Or.inr rfl)
      · refine fun f hf => ⟨(hn.apart f hf).1, ?_⟩
        rintro (hu | rfl)
        · exact (h.apart f hf).2 hu
        · exact hfr (h.apart _ hf).1

end

/-! ## Pages that lead to themselves -/

def LeadsToItself (space : Page → Option Mapping) (page : Page) : Prop :=
  ∃ flags, space page = some ⟨UInt64.ofNat (page * 4096), flags⟩ ∧
    In (VMM_PRESENT ||| VMM_WRITABLE) flags

def Manages (pmm : Pmm) (page : Nat) : Prop :=
  pmm.reserved_pages.toNat ≤ page ∧ page < pmm.managed_pages.toNat

/-- The invariant, with the pages that a call holds for itself. -/
structure Identity (base : Pmm) (held : Nat → Prop) (s : Vmm Pmm) : Prop where
  sound : Sound (Fits base held) s
  counted : Counted s
  identity : ∀ page : Page, Manages base page → LeadsToItself s.space page

section
variable {base : Pmm} {held : Nat → Prop} {s s' : Vmm Pmm}

theorem Identity.keeps (h : Identity base held s) (hk : Keeps (Fits base held) s s') :
    Identity base held s' where
  sound := hk.sound
  counted := hk.counted h.counted
  identity page hpage := by
    rw [hk.space]
    exact h.identity page hpage

theorem Identity.writes (h : Identity base held s) {window : Page} {e : UInt64}
    (hw : Writes (Fits base held) s s' window e) (hc : Counted s')
    (ho : ¬ Manages base window) : Identity base held s' where
  sound := hw.sound
  counted := hc
  identity page hpage := by
    have hne : page ≠ window := fun heq => ho (heq ▸ hpage)
    unfold LeadsToItself
    rw [hw.space, Function.update_of_ne hne]
    exact h.identity page hpage

theorem Identity.map (h : Identity base held s) {v : UInt64} (p flags : UInt64) {w : Page}
    (hp : v.toNat / 4096 = w.val) (ho : ¬ Manages base w) :
    Identity base held (vmm_map_page allocPage s v p flags).1 := by
  rcases vmm_map_page_spec (supplies_allocPage base held s.root) h.sound h.counted p flags hp with
    ⟨s', hc, hk⟩ | ⟨s', hc, _, _, hcn, hw⟩
  · rw [hc]
    exact h.keeps hk
  · rw [hc]
    exact h.writes hw hcn ho

theorem Identity.unmap (h : Identity base held s) {v : UInt64} {w : Page}
    (hp : v.toNat / 4096 = w.val) (ho : ¬ Manages base w) :
    Identity base held (vmm_unmap_page allocPage s v).1 := by
  rcases vmm_unmap_page_spec (supplies_allocPage base held s.root) h.sound h.counted hp with
    ⟨s', hc, hk⟩ | ⟨s', hc, _, hcn, hw⟩
  · rw [hc]
    exact h.keeps hk
  · rw [hc]
    exact h.writes hw hcn ho

theorem Identity.query (h : Identity base held s) (v : UInt64) :
    Identity base held (vmm_query_page allocPage s v).1 :=
  h.keeps (vmm_query_page_keeps (supplies_allocPage base held s.root) h.sound v)

theorem Identity.pmm {hl' : Nat → Prop} (h : Identity base held s) {pmm : Pmm}
    (hf : Fits base hl' s.UsesTable pmm) : Identity base hl' { s with pmm } :=
  ⟨⟨h.sound.unshared, hf⟩, h.counted, h.identity⟩

theorem store_agrees {f : Nat} (hf : ¬ s.UsesTable f) (v : UInt64) (g : Nat)
    (hg : Uses child s.root (tables s.mem) g) (j : Fin 512) :
    tables (store64 s.mem (4096 * f) v) g j = tables s.mem g j := by
  have hj := j.isLt
  have hne : g ≠ f := fun heq => hf (heq ▸ hg)
  unfold tables
  rw [load64_store64_ne]
  omega

theorem store_keeps (hs : Sound (Fits base held) s) {f : Nat} (hf : ¬ s.UsesTable f)
    (v : UInt64) : Keeps (Fits base held) s { s with mem := store64 s.mem (4096 * f) v } where
  cr3 := rfl
  count := rfl
  mapping page := translate_congr (store_agrees hf v) page
  grows hpath := (tableAt_congr (store_agrees hf v) _).trans hpath
  sound := ⟨hs.unshared.congr (store_agrees hf v),
    fits_shrinks base held _ _ _ hs.fit fun g hg => (uses_congr (store_agrees hf v) g).mp hg⟩

theorem Identity.free (h : Identity base held s) {a : UInt64} {c : UInt32}
    (hw : (pmm.pageOf a).toNat + c.toNat < 2 ^ 32)
    (hs : ∀ f, (pmm.pageOf a).toNat ≤ f →
      f < (pmm.pageOf a).toNat + c.toNat → ¬ s.UsesTable f) :
    Identity base (fun _ => False) (freePages s a c) := by
  have hft := h.sound.fit
  refine h.pmm ?_
  by_cases hr : Refuses s.pmm a c
  · rw [pmm_free_pages_eq, if_pos hr]
    have hc := hft.consistent
    exact ⟨⟨hc.managed_le, hc.reserved_le, hc.low, hc.high, hc.count, hc.peak⟩, hft.managed,
      hft.reserved, hft.tables, nofun⟩
  · obtain ⟨b, used, hfr, hc, -, -, hb⟩ := hft.consistent.free hr hw
    rw [hfr]
    refine ⟨hc, hft.managed, hft.reserved, fun f hf => ?_, nofun⟩
    have ho : ¬ ((pmm.pageOf a).toNat ≤ f ∧ f < (pmm.pageOf a).toNat + c.toNat) := by grind
    show test b f = true
    rw [hb, decide_eq_false ho]
    exact hft.tables f hf

/-! ## The self test -/

def testPage : Page := ⟨0x40000, by decide⟩

theorem test_address_page : TEST_ADDRESS.toNat / 4096 = testPage.val := rfl

theorem Identity.hold (h : Identity base (fun _ => False) s) {st : UInt32} {pmm : Pmm}
    (hm : Marks s.pmm pmm (· = st.toNat)) (hf : ¬ s.pmm.Used st.toNat) :
    Identity base (· = st.toNat) { s with pmm } := by
  have hn := h.sound.fit.marks hm
  refine h.pmm ⟨hn.consistent, hn.managed, hn.reserved, hn.tables, ?_⟩
  rintro f rfl
  exact ⟨(hm.used _).mpr (Or.inr rfl), fun hu => hf (h.sound.fit.tables _ hu)⟩

theorem Identity.release {st : UInt32} (hlt : st.toNat < 2 ^ 31)
    (h : Identity base (· = st.toNat) s) :
    Identity base (fun _ => False) (freePages s (st.toUInt64 * 4096) 1) := by
  have ho : (1 : UInt32).toNat = 1 := rfl
  have hp : (pmm.pageOf (st.toUInt64 * 4096)).toNat = st.toNat := by
    grind [toNat_pageOf, page_of_start, Nat.mod_eq_of_lt]
  have hn := (h.sound.fit.apart st.toNat rfl).2
  refine h.free (by omega) fun f h1 h2 => ?_
  grind

theorem Identity.testFails {st : UInt32} (hlt : st.toNat < 2 ^ 31)
    (h : Identity base (· = st.toNat) s) (ho : ¬ Manages base testPage) :
    Identity base (fun _ => False) (testFails s (st.toUInt64 * 4096)).1 :=
  release hlt (h.unmap test_address_page ho)

theorem Identity.testUnmaps {st : UInt32} (hlt : st.toNat < 2 ^ 31)
    (h : Identity base (· = st.toNat) s) (ho : ¬ Manages base testPage) :
    Identity base (fun _ => False) (testUnmaps s (st.toUInt64 * 4096)).1 :=
  testUnmaps_rule (h.unmap test_address_page ho) (fun _ hs => hs.query TEST_ADDRESS)
    (fun _ hs => release hlt hs) (fun _ hs => release hlt hs)

theorem Identity.selfTest (h : Identity base (fun _ => False) s) (ho : ¬ Manages base testPage) :
    Identity base (fun _ => False) (vmm_self_test s).1 := by
  have hf := h.sound.fit
  unfold vmm_self_test
  rcases allocPage_spec s.mem hf.consistent with
    ⟨pmm, heq, hm, _⟩ | ⟨st, pmm, heq, hm, _, hh, hfr, _⟩
  · rw [heq]
    exact h.pmm (hf.marks hm)
  rw [heq]
  simp only
  split
  · exact h.pmm (hf.marks hm)
  have hmp := (h.hold hm hfr).map (st.toUInt64 * 4096) (VMM_WRITABLE ||| VMM_NO_EXECUTE)
    test_address_page ho
  have hlt : st.toNat < 2 ^ 31 := by
    have := hf.consistent.managed_le
    omega
  generalize vmm_map_page allocPage { s with pmm } TEST_ADDRESS (st.toUInt64 * 4096)
    (VMM_WRITABLE ||| VMM_NO_EXECUTE) = r at hmp
  rcases r with ⟨s1, rs⟩
  split
  swap
  · grind [release, Prod.mk.inj]
  rename_i heq
  obtain ⟨rfl, -⟩ := Prod.mk.inj heq
  have hs := hmp.keeps (store_keeps hmp.sound (hmp.sound.fit.apart _ rfl).2 TEST_VALUE)
  have ha : (st.toUInt64 * 4096).toNat = 4096 * st.toNat := by
    rw [toNat_address, Nat.mul_comm]
  rw [ha]
  split
  · exact hs.testFails hlt ho
  have hq := hs.query TEST_ADDRESS
  generalize vmm_query_page allocPage _ TEST_ADDRESS = r at hq
  rcases r with ⟨s2, _ | ⟨q, flags⟩⟩
  · exact hq.testFails hlt ho
  simp only
  split
  · exact hq.testFails hlt ho
  · exact hq.testUnmaps hlt ho

/-! ## The set-up -/

theorem Identity.andThen {r : Vmm Pmm × Int} {next : Vmm Pmm → Vmm Pmm × Int}
    (h : Identity base held r.1)
    (hn : ∀ s, Identity base held s → Identity base held (next s).1) :
    Identity base held (andThen r next).1 :=
  andThen_rule h (fun _ hs => hs) hn

theorem Identity.mapEach (flags : UInt64) {l : UInt64} (hls : l.toNat ≤ 2 ^ 48)
    (ho : ∀ p, p * 4096 < l.toNat → ¬ Manages base p) (turns : Nat) (a : UInt64)
    (h : Identity base held s) : Identity base held (mapEach flags l turns a s).1 := by
  induction turns generalizing a s with
  | zero => exact h
  | succ turns ih =>
    unfold vmm.mapEach
    split
    swap
    · exact h
    rename_i hl
    rw [UInt64.lt_iff_toNat_lt] at hl
    have hp : a.toNat / 4096 = (vmm.pageOf a (by omega)).val := rfl
    exact (h.map a flags hp (ho _ (by rw [← hp]; omega))).andThen
      fun s hs => ih (a + 4096) hs

end

/-- The parts of the kernel follow each other, from 2 MiB on, and end below 4 GiB. -/
structure Layout.Linked (layout : Layout) : Prop where
  start : 0x200000 ≤ layout.kernel_start.toNat
  text : layout.kernel_start.toNat ≤ layout.text_end.toNat
  rodata_start : layout.text_end.toNat ≤ layout.rodata_start.toNat
  rodata_end : layout.rodata_start.toNat ≤ layout.rodata_end.toNat
  kernel_end : layout.rodata_end.toNat ≤ layout.kernel_end.toNat
  small : layout.kernel_end.toNat ≤ 0x100000000 - 4096

def Layout.pages (layout : Layout) : Nat := (layout.kernel_end.toNat + 4095) / 4096

theorem toNat_round {a : UInt64} (h : a.toNat ≤ 0x100000000 - 4096) :
    (a + 4096 - 1).toNat = a.toNat + 4095 := by
  have hs : (4096 : UInt64).toNat = 4096 := rfl
  grind

theorem toNat_roundUp {a : UInt64} (h : a.toNat ≤ 0x100000000 - 4096) :
    (roundUp a).toNat = (a.toNat + 4095) / 4096 * 4096 := by
  unfold roundUp
  rw [UInt64.toNat_and, toNat_round h]
  refine (nat_and_mask (a.toNat + 4095) (show 12 ≤ 64 by decide)).trans ?_
  omega

section
variable {base : Pmm} {held : Nat → Prop} {s : Vmm Pmm} {layout : Layout}

theorem Identity.protect (hl : layout.Linked)
    (ho : ∀ page < layout.pages, ¬ Manages base page) (h : Identity base held s) :
    Identity base held (protect layout s).1 := by
  have hk := hl.kernel_end
  have hrd := hl.rodata_end
  have hr := hl.rodata_start
  have hsm := hl.small
  have hrn := toNat_roundUp hsm
  have hb (l : UInt64) (hls : l.toNat ≤ layout.pages * 4096) (page : Nat)
      (hpg : page * 4096 < l.toNat) : ¬ Manages base page := ho page (by omega)
  have hp : layout.kernel_end.toNat ≤ layout.pages * 4096 := by
    unfold Layout.pages
    omega
  have hm : layout.pages * 4096 ≤ 0x100000000 := by
    unfold Layout.pages
    omega
  unfold vmm.protect
  refine (h.mapEach _ (by omega) (hb layout.text_end (by omega)) _ _).andThen fun s hs => ?_
  refine (hs.mapEach _ (by omega) (hb layout.rodata_end (by omega)) _ _).andThen fun s hs => ?_
  refine hs.mapEach _ (by omega) (hb (roundUp layout.kernel_end) ?_) _ _
  rw [hrn]
  exact le_refl _

end

theorem identityLimit_eq (flags : UInt64) :
    (identityLimit flags).toNat = identityGib flags * 2 ^ 30 ∧ identityGib flags ≤ 4 ∧
      ¬ (identityLimit flags = 0 ∨ identityLimit flags > 0x100000000) := by
  unfold identityLimit identityGib
  split <;> decide

def usableBytes (memory_kib mapped_limit : UInt64) : UInt64 :=
  if memory_kib * 1024 > mapped_limit then mapped_limit else memory_kib * 1024

theorem usableBytes_le (memory_kib mapped_limit : UInt64) :
    usableBytes memory_kib mapped_limit ≤ mapped_limit := by
  unfold usableBytes
  grind

theorem pmm_init_limit_fields {memory_kib k m : UInt64} {base : Pmm}
    (hl : ¬ (m = 0 ∨ m > 0x100000000))
    (h : pmm_init_limit memory_kib k m = some base) :
    (base.managed_pages = if (usableBytes memory_kib m / 4096).toUInt32 > PMM_MAX_PAGES
      then PMM_MAX_PAGES else (usableBytes memory_kib m / 4096).toUInt32) ∧
    base.reserved_pages =
      if ((k + 4096 - 1) / 4096).toUInt32 > base.managed_pages then base.managed_pages
      else ((k + 4096 - 1) / 4096).toUInt32 := by
  unfold pmm_init_limit at h
  rw [if_neg hl] at h
  simp only [Option.bind_eq_bind, Option.bind_eq_some_iff] at h
  obtain ⟨b, -, h⟩ := h
  cases h
  exact ⟨rfl, rfl⟩

theorem pmm_init_limit_bounds {memory_kib flags : UInt64} {layout : Layout} (hl : layout.Linked)
    {base : Pmm} (hbs : pmm_init_limit memory_kib layout.kernel_end (identityLimit flags) = some base) :
    Consistent base ∧ base.managed_pages.toNat ≤ identityGib flags * 2 ^ 18 ∧
      ∀ page < layout.pages, ¬ Manages base page := by
  obtain ⟨hlm, hg, hp⟩ := identityLimit_eq flags
  obtain ⟨b', hb', hc, -⟩ :=
    pmm_init_limit_eq memory_kib layout.kernel_end (identityLimit flags)
  cases hbs.symm.trans hb'
  obtain ⟨hm, hr⟩ := pmm_init_limit_fields hp hbs
  have hb := usableBytes_le memory_kib (identityLimit flags)
  rw [UInt64.le_iff_toNat_le, hlm] at hb
  generalize usableBytes memory_kib (identityLimit flags) = bytes at hb hm
  have hsz : (4096 : UInt64).toNat = 4096 := rfl
  have hpg : ((bytes / 4096).toUInt32).toNat = bytes.toNat / 4096 := by grind
  have hk : (((layout.kernel_end + 4096 - 1) / 4096).toUInt32).toNat = layout.pages := by
    have hs := hl.small
    grind [UInt64.toNat_toUInt32, UInt64.toNat_div, Layout.pages, toNat_round]
  refine ⟨hc, ?_, fun page hpa hmn => ?_⟩
  · rw [hm]
    split
    · grind
    · rw [hpg]
      omega
  · obtain ⟨hlw, hh⟩ := hmn
    rw [hr] at hlw
    split at hlw
    · omega
    · rw [hk] at hlw
      omega

section
variable {memory_kib flags : UInt64} {layout : Layout} {base : Pmm} {s : Vmm Pmm}
variable {pdpt : UInt64} {pd : Fin 512 → UInt64}

/-- The state at boot: the tables of the loader, which lie in the kernel, and a fresh allocator. -/
structure Booted (memory_kib flags : UInt64) (layout : Layout) (s : Vmm Pmm) (pdpt : UInt64)
    (pd : Fin 512 → UInt64) : Prop where
  linked : layout.Linked
  pmm : pmm_init_limit memory_kib layout.kernel_end (identityLimit flags) = some s.pmm
  tables : BootTables (identityGib flags) s pdpt pd
  inside : ∀ f, s.UsesTable f → f < layout.pages

theorem Booted.identity (h : Booted memory_kib flags layout s pdpt pd) :
    Identity s.pmm (fun _ => False) (vmm_init flags layout s).1 := by
  obtain ⟨hc, hm, ho⟩ := pmm_init_limit_bounds h.linked h.pmm
  have hg := (identityLimit_eq flags).2.1
  have hb : BootTables (identityGib flags)
      { s with mapped_page_count := bootCount (identityGib flags) } pdpt pd := ⟨h.tables.few,
    h.tables.pdpt_page, h.tables.pd_page, h.tables.pml4_entries, h.tables.pdpt_entries,
    h.tables.pd_entries, h.tables.pdpt_apart, h.tables.pd_apart, h.tables.pd_differ⟩
  have hst : Identity s.pmm (fun _ => False)
      { s with mapped_page_count := bootCount (identityGib flags) } := by
    refine ⟨⟨hb.unshared, hc, rfl, rfl, fun f hf => ?_, nofun⟩,
      (hb.inStep rfl).counted, fun p hpg => ?_⟩
    · have hp := h.inside f hf
      have hsm := h.linked.small
      have hn := ho f hp
      have hl := hc.low f
      have hh := hc.high f
      grind [Manages, Layout.pages]
    · refine ⟨VMM_PRESENT ||| VMM_WRITABLE, ?_, by decide⟩
      rw [hb.space, if_pos (hpg.2.trans_le hm)]
  have hz : (0 : UInt64).toNat / 4096 = (⟨0, by decide⟩ : Page).val := rfl
  have hk : 0 < layout.pages := by
    have := h.linked.start
    have := h.linked.text
    have := h.linked.rodata_start
    have := h.linked.rodata_end
    have := h.linked.kernel_end
    unfold Layout.pages
    omega
  exact (hst.unmap hz (ho 0 hk)).andThen fun s hs => hs.protect h.linked ho

end

end mvh.vmm
