-- Runs of the calls that map windows or take and return pages.
import MvhKernel.IdentityMap
import MvhKernel.VmmStock

open flat_memory table_tree masks runs bitmap

namespace mvh.identity

open vmm pmm acpi pci framebuffer bootinfo

/-! ## The machine -/

structure Machine where
  vmm : Vmm Pmm
  pci : Pci
  screen : Screen

inductive Event
  | configRead (bus slot function offset : UInt8)
  | configWrite (bus slot function offset : UInt8) (value : UInt32)
  | framebufferInit
  | selfTest
  | allocPages (count : UInt32)
  | freePages (address : UInt64) (count : UInt32)

def Machine.step (ports : UInt32 → UInt32) (boot : Snapshot) (m : Machine) : Event → Machine
  | .configRead bus slot function offset =>
    let (vmm, pci, _) := pci_config_read32 (vmm_map_page allocPage) ports m.pci m.vmm bus slot
      function offset
    { m with vmm, pci }
  | .configWrite bus slot function offset value =>
    let (vmm, pci) := pci_config_write32 (vmm_map_page allocPage) m.pci m.vmm bus slot function
      offset value
    { m with vmm, pci }
  | .framebufferInit =>
    let (vmm, screen, _) := framebuffer_init (vmm_map_page allocPage) boot m.vmm
    { m with vmm, screen }
  | .selfTest => { m with vmm := (vmm_self_test m.vmm).1 }
  | .allocPages count =>
    match pmm_alloc_pages m.vmm.pmm count with
    | some (_, pmm) => { m with vmm := { m.vmm with pmm } }
    | none => m
  | .freePages address count => { m with vmm := vmm.freePages m.vmm address count }

/-- Every page that is free in the allocator leads to itself, present and writable. -/
def FreePagesLead (m : Machine) : Prop :=
  ∀ page : Page, Manages m.vmm.pmm page → ¬ m.vmm.pmm.Used page → LeadsToItself m.vmm.space page

/-- The call maps its window above the pages of the allocator, and a free takes no table away and
does not wrap around. -/
def Spares (boot : Snapshot) (m : Machine) : Event → Prop
  | .configRead bus _ _ _ => UsesWindow m.pci bus → m.vmm.pmm.managed_pages.toNat ≤ 0x50000
  | .configWrite bus _ _ _ _ => UsesWindow m.pci bus → m.vmm.pmm.managed_pages.toNat ≤ 0x50000
  | .framebufferInit =>
    boot.flags &&& FLAG_FRAMEBUFFER ≠ 0 → m.vmm.pmm.managed_pages.toNat ≤ 0x60000
  | .selfTest => m.vmm.pmm.managed_pages.toNat ≤ 0x40000
  | .allocPages _ => True
  | .freePages address count => (pmm.pageOf address).toNat + count.toNat < 2 ^ 32 ∧
    ∀ f, (pmm.pageOf address).toNat ≤ f → f < (pmm.pageOf address).toNat + count.toNat →
      ¬ m.vmm.UsesTable f

/-! ## One call -/

section
variable {base : Pmm} {s : Vmm Pmm}

theorem above {page : Nat} (h : base.managed_pages.toNat ≤ page) : ¬ Manages base page :=
  fun hmanages => absurd hmanages.2 (by omega)

theorem register_keeps {hl : Nat → Prop} (h : Identity base hl s)
    (hb : base.managed_pages.toNat ≤ 0x50000) (p : UInt64) :
    Identity base hl (mapRegister (vmm_map_page allocPage) s p).1 := by
  have hp : PCI_ECAM_WINDOW.toNat / 4096 = (⟨0x50000, by decide⟩ : Page).val := rfl
  exact h.map _ _ hp (above hb)

theorem window_keeps {hl : Nat → Prop} (hb : base.managed_pages.toNat ≤ 0x60000)
    (s : Vmm Pmm) (pg p : UInt64) (hp : pg.toNat < 2 ^ 15) (h : Identity base hl s) :
    Identity base hl (vmm_map_page allocPage s (FRAMEBUFFER_WINDOW + pg * 0x1000) p
      WINDOW_FLAGS).1 := by
  have hw : FRAMEBUFFER_WINDOW.toNat = 0x60000000 := rfl
  have hs : (0x1000 : UInt64).toNat = 0x1000 := rfl
  have ha : (FRAMEBUFFER_WINDOW + pg * 0x1000).toNat / 4096 =
      (⟨0x60000 + pg.toNat, by omega⟩ : Page).val := by grind
  exact h.map _ _ ha (above (by simp only; omega))

def Led (base : Pmm) (m : Machine) : Prop := Identity base (fun _ => False) m.vmm

theorem Led.step {pr : UInt32 → UInt32} {boot : Snapshot} {m : Machine} {event : Event}
    (h : Led base m) (hsp : Spares boot m event) : Led base (m.step pr boot event) := by
  have hm := h.sound.fit.managed
  cases event with
  | configRead bus sl f o =>
    show Identity base _ (pci_config_read32 _ pr m.pci m.vmm bus sl f o).1
    rw [pci_config_read32_vmm]
    split
    · exact register_keeps h (hm ▸ hsp ‹_›) _
    · exact h
  | configWrite bus sl f o v =>
    show Identity base _ (pci_config_write32 _ m.pci m.vmm bus sl f o v).1
    rw [pci_config_write32_vmm]
    split
    · exact register_keeps h (hm ▸ hsp ‹_›) _
    · exact h
  | framebufferInit =>
    exact framebuffer_init_keeps boot
      (fun hfl s pg p hp hs => window_keeps (hm ▸ hsp hfl) s pg p hp hs) h
  | selfTest => exact Identity.selfTest h (above (hm ▸ hsp))
  | allocPages c =>
    have hf := h.sound.fit
    rcases alloc_marks hf.consistent c with ⟨pmm, heq, hmr, _⟩ | ⟨start, pmm, heq, hmr, _⟩
    · simp only [Machine.step, heq]
      exact h.pmm (hf.marks hmr)
    · simp only [Machine.step, heq]
      exact h.pmm (hf.marks hmr)
  | freePages a c => exact Identity.free h hsp.1 hsp.2

theorem Led.lead {m : Machine} (h : Led base m) : FreePagesLead m := by
  intro p hmanages _
  refine h.identity p ?_
  unfold Manages at *
  rw [← h.sound.fit.managed, ← h.sound.fit.reserved]
  exact hmanages

end

/-! ## Runs -/

/-- After the set-up, in every run whose calls keep their windows above the pages of the allocator,
every free page leads to itself. -/
theorem free_pages_lead_to_themselves (memory_kib : UInt64) (boot : Snapshot) (layout : Layout)
    (s : Vmm Pmm) (pdpt : UInt64) (pd : Fin 512 → UInt64) (pci : Pci) (screen : Screen)
    (ports : UInt32 → UInt32) (events : List Event)
    (hboot : Booted memory_kib boot.flags layout s pdpt pd)
    (heach : Each (Machine.step ports boot) (Spares boot)
      ⟨(vmm_init boot.flags layout s).1, pci, screen⟩ events) :
    Always (Machine.step ports boot) FreePagesLead
      ⟨(vmm_init boot.flags layout s).1, pci, screen⟩ events := by
  have hstart : Led s.pmm ⟨(vmm_init boot.flags layout s).1, pci, screen⟩ := hboot.identity
  exact always_of_each (fun _ _ h hspares => h.step hspares) (fun _ h => h.lead) hstart heach

theorem spares_test_and_alloc {p : UInt32 → UInt32} {boot : Snapshot} {s : Vmm Pmm} {pci : Pci}
    {sc : Screen} (h : s.pmm.managed_pages.toNat ≤ 0x40000) (c : UInt32) :
    Each (Machine.step p boot) (Spares boot) ⟨s, pci, sc⟩ [.selfTest, .allocPages c] :=
  ⟨h, trivial, trivial⟩

/-! ## A free page that is unmapped -/

/-- The pages below some page are in use and the others are free, and there are so many pages to
give below the limit. -/
structure FreeFrom (base : Pmm) (limit n : Nat) (pmm : Pmm) : Prop where
  consistent : Consistent pmm
  managed : pmm.managed_pages = base.managed_pages
  reserved : pmm.reserved_pages = base.reserved_pages
  first : ∃ k, base.reserved_pages.toNat ≤ k ∧ k + n ≤ limit ∧
    ∀ f, Manages base f → (pmm.Used f ↔ f < k)

section
variable {base : Pmm} {limit n : Nat} {pmm : Pmm}

theorem FreeFrom.take (hlm : limit ≤ base.managed_pages.toNat) (m : Mem)
    (h : FreeFrom base limit (n + 1) pmm) : ∃ (start : UInt32) (pmm' : Pmm),
    allocPage m pmm = (start.toUInt64 * 4096, pmm') ∧ Marks pmm pmm' (· = start.toNat) ∧
      ¬ pmm.Used start.toNat ∧ base.reserved_pages.toNat ≤ start.toNat ∧ start.toNat < limit ∧
      FreeFrom base limit n pmm' := by
  obtain ⟨k, hk, hrm, hu⟩ := h.first
  have hmn := h.managed
  have hr := h.reserved
  have hfe : ¬ pmm.Used k := fun hk' => absurd ((hu k ⟨hk, by omega⟩).mp hk') (lt_irrefl k)
  rcases allocPage_spec m h.consistent with
    ⟨pmm', heq, _, ha⟩ | ⟨start, pmm', heq, hm, hl, hh, hs, hfr⟩
  · grind
  · rw [hr] at hl hfr
    rw [hmn] at hh
    have hsm : start.toNat = k := by
      have h1 : ¬ start.toNat < k := fun hlt => hs ((hu _ ⟨hl, hh⟩).mpr hlt)
      grind
    refine ⟨start, pmm', heq, hm, hs, hl, by omega, hm.consistent, hm.managed.trans hmn,
      hm.reserved.trans hr, k + 1, by omega, by omega, fun f hf => ?_⟩
    rw [hm.used, hu f hf, hsm]
    omega

theorem FreeFrom.stocked (hl : limit ≤ base.managed_pages.toNat)
    (hg : 0 < base.reserved_pages.toNat) : Stocked allocPage (FreeFrom base limit) where
  fewer h := by
    obtain ⟨k, hk, hr, hu⟩ := h.first
    exact ⟨h.consistent, h.managed, h.reserved, k, hk, by omega, hu⟩
  gives m h := by
    obtain ⟨start, p', heq, -, -, hlw, -, -⟩ := h.take hl m
    rw [heq, ne_eq, ← UInt64.toNat_inj, toNat_address, UInt64.toNat_zero]
    omega
  takes m h := by
    obtain ⟨start, p', heq, -, -, -, -, hn⟩ := h.take hl m
    rw [heq]
    exact hn

end

/-- The page of the self test leads somewhere else, or nowhere, while it is free. -/
structure Spoiled (base : Pmm) (start : UInt32) (n : Nat) (s : Vmm Pmm) : Prop where
  sound : Sound (vmm.Fits base (· = start.toNat)) s
  counted : Counted s
  wrong : ¬ LeadsToItself s.space testPage
  stock : FreeFrom base testPage n s.pmm

section
variable {base : Pmm} {start : UInt32} {n : Nat} {s s' : Vmm Pmm}

theorem Spoiled.keeps {k : Nat} (h : Spoiled base start n s)
    (hk : Keeps (vmm.Fits base (· = start.toNat)) s s') (hs : FreeFrom base testPage k s'.pmm) :
    Spoiled base start k s' where
  sound := hk.sound
  counted := hk.counted h.counted
  wrong := by
    rw [hk.space]
    exact h.wrong
  stock := hs

variable (hstocked : Stocked allocPage (FreeFrom base testPage)) (h : Spoiled base start (n + 3) s)
include hstocked h

theorem Spoiled.unmap : Spoiled base start n (vmm_unmap_page allocPage s TEST_ADDRESS).1 := by
  have hs := unmap_served hstocked h.stock TEST_ADDRESS
  rcases vmm_unmap_page_spec (supplies_allocPage base _ s.root) h.sound h.counted test_address_page with
    ⟨s', hc, hk⟩ | ⟨s', hc, _, hcn, hw⟩
  · rw [hc] at hs ⊢
    exact h.keeps hk hs
  · rw [hc] at hs ⊢
    refine ⟨hw.sound, hcn, ?_, hs⟩
    rintro ⟨f, hsp, -⟩
    grind [space_after_unmap]

theorem Spoiled.query : Spoiled base start n (vmm_query_page allocPage s TEST_ADDRESS).1 :=
  h.keeps (vmm_query_page_keeps (supplies_allocPage base _ s.root) h.sound TEST_ADDRESS)
    (query_served hstocked h.stock TEST_ADDRESS)

end

/-- The page of the self test is free and does not lead to itself. -/
structure Lost (base : Pmm) (s : Vmm Pmm) : Prop where
  managed : s.pmm.managed_pages = base.managed_pages
  reserved : s.pmm.reserved_pages = base.reserved_pages
  free : ¬ s.pmm.Used testPage
  wrong : ¬ LeadsToItself s.space testPage

theorem Lost.not_lead {base : Pmm} {s : Vmm Pmm} {pci : Pci} {sc : Screen}
    {p : UInt32 → UInt32} {boot : Snapshot} (h : Lost base (vmm_self_test s).1)
    (hmanages : Manages base testPage) :
    ¬ FreePagesLead (Machine.step p boot ⟨s, pci, sc⟩ .selfTest) := by
  intro hl
  refine h.wrong (hl testPage ?_ h.free)
  show Manages (vmm_self_test s).1.pmm testPage
  rw [Manages, h.managed, h.reserved]
  exact hmanages

section
variable {base : Pmm} {start : UInt32} {n : Nat} {s : Vmm Pmm}

theorem Spoiled.release (hmanages : Manages base testPage) (hlt : start.toNat < 2 ^ 31)
    (h : Spoiled base start n s) : Lost base (freePages s (start.toUInt64 * 4096) 1) := by
  obtain ⟨k, -, hrm, hu⟩ := h.stock.first
  have hf : ¬ s.pmm.Used testPage := by grind
  have ho : (1 : UInt32).toNat = 1 := rfl
  have hp : (pmm.pageOf (start.toUInt64 * 4096)).toNat = start.toNat := by
    grind [toNat_pageOf, page_of_start, Nat.mod_eq_of_lt]
  unfold freePages
  by_cases hr : Refuses s.pmm (start.toUInt64 * 4096) 1
  · rw [pmm_free_pages_eq, if_pos hr]
    exact ⟨h.stock.managed, h.stock.reserved, hf, h.wrong⟩
  · obtain ⟨b, u, heq, -, -, -, hb⟩ := h.stock.consistent.free hr (by omega)
    rw [heq]
    refine ⟨h.stock.managed, h.stock.reserved, fun hin => hf ?_, h.wrong⟩
    have hin : test b testPage = true := hin
    rw [hb, Bool.and_eq_true] at hin
    exact hin.2

variable (hstocked : Stocked allocPage (FreeFrom base testPage)) (hmanages : Manages base testPage)
variable (hlt : start.toNat < 2 ^ 31)
include hstocked hmanages hlt

theorem Spoiled.testFails (h : Spoiled base start (n + 3) s) :
    Lost base (testFails s (start.toUInt64 * 4096)).1 :=
  (h.unmap hstocked).release hmanages hlt

theorem Spoiled.testUnmaps (h : Spoiled base start (n + 3 + 3) s) :
    Lost base (testUnmaps s (start.toUInt64 * 4096)).1 :=
  testUnmaps_rule (h.unmap hstocked) (fun _ hs => hs.query hstocked)
    (fun _ hs => hs.release hmanages hlt) (fun _ hs => hs.release hmanages hlt)

omit hlt in
theorem selfTest_loses (h : Identity base (fun _ => False) s)
    (hsk : FreeFrom base testPage (n + 13) s.pmm) (hl : testPage.val ≤ base.managed_pages.toNat)
    (hg : 0 < base.reserved_pages.toNat) : Lost base (vmm_self_test s).1 := by
  obtain ⟨start, pmm, heq, hmr, hf, hlw, hh, hlf⟩ := hsk.take hl s.mem
  have hlt : start.toNat < 2 ^ 31 := hh.trans (by decide)
  have ha : (start.toUInt64 * 4096).toNat = 4096 * start.toNat := by
    rw [toNat_address, Nat.mul_comm]
  have hm : In (start.toUInt64 * 4096) PAGE_MASK :=
    in_mask_of_start (hh.trans (by decide))
  have hn : start.toUInt64 * 4096 ≠ 0 := by
    rw [ne_eq, ← UInt64.toNat_inj, ha, UInt64.toNat_zero]
    omega
  have hal : start.toUInt64 * 4096 &&& (4096 - 1) = 0 := by
    grind [UInt64.toNat_inj, low_bits, UInt64.toNat_zero]
  have hhl := h.hold hmr hf
  obtain ⟨hs1, hsc⟩ := map_served (s := { s with pmm }) hstocked hlf TEST_ADDRESS
    (start.toUInt64 * 4096) (VMM_WRITABLE ||| VMM_NO_EXECUTE)
  have hr := hsc (by decide) hal
  unfold vmm_self_test
  rw [heq]
  simp only
  rw [if_neg hn]
  rcases vmm_map_page_spec (supplies_allocPage base _ _) hhl.sound hhl.counted
      (start.toUInt64 * 4096) (VMM_WRITABLE ||| VMM_NO_EXECUTE) test_address_page with
    ⟨s', hcl, hk⟩ | ⟨s', hcl, _, _, hc, hw⟩
  · grind
  rw [hcl] at hs1 ⊢
  simp only at hs1 ⊢
  have hs : Spoiled base start (n + 9) s' := by
    refine ⟨hw.sound, hc, ?_, hs1⟩
    rintro ⟨f, hsp, -⟩
    rw [hw.space, Function.update_self, hm, small_entry hm (by decide)] at hsp
    grind
  rw [ha]
  have hst := hs.keeps
    (store_keeps hs.sound (hs.sound.fit.apart _ rfl).2 TEST_VALUE) hs.stock
  split
  · exact hst.testFails hstocked hmanages hlt
  have hq := hst.query hstocked
  generalize vmm_query_page allocPage _ TEST_ADDRESS = r at hq
  rcases r with ⟨s2, _ | ⟨q, f⟩⟩
  · exact hq.testFails hstocked hmanages hlt
  simp only
  split
  · exact hq.testFails hstocked hmanages hlt
  · exact hq.testUnmaps hstocked hmanages hlt

end

/-! ## A small machine and a large one -/

def sampleLayout : Layout := ⟨0x200000, 0x240000, 0x240000, 0x260000, 0x300000⟩

/-- The snapshot of a loader that has mapped 4 GiB and found no framebuffer. -/
def sampleSnapshot : Snapshot := snapshotOf (multiboot.blockInfo 0x40 2097152 0 0 0 0 0 0 0 0)

def sampleVmm (pmm : Pmm) : Vmm Pmm :=
  ⟨bootstrap_paging (fun _ => 0) 0x2E0000, 0x2E0000, 0, pmm⟩

def samplePci : Pci := ⟨0, 0, 0, 0, 0, 0, fun _ => 0⟩

theorem sample_booted {m : UInt64} {pmm : Pmm}
    (hpm : pmm_init_limit m sampleLayout.kernel_end (identityLimit sampleSnapshot.flags) =
      some pmm) :
    Booted m sampleSnapshot.flags sampleLayout (sampleVmm pmm)
      (0x2E0000 + 4096 : UInt32).toUInt64
      fun k => (pdAt (0x2E0000 + 4096 + 4096) k).toUInt64 := by
  have ht : BootTables 4 (sampleVmm pmm) (0x2E0000 + 4096 : UInt32).toUInt64
      fun k => (pdAt (0x2E0000 + 4096 + 4096) k).toUInt64 :=
    bootstrap_tables (f := 0x2E0) rfl (by decide)
      (fun i => ⟨tables_clear _ i, tables_clear _ i⟩) rfl rfl
  refine ⟨⟨?_, ?_, ?_, ?_, ?_, ?_⟩, hpm, ht, ?_⟩
  · decide
  · decide
  · decide
  · decide
  · decide
  · decide
  · rintro f ⟨path, hp⟩
    rcases ht.of_tableAt hp with ⟨-, rfl⟩ | ⟨-, rfl⟩ | ⟨k, hk, -, rfl⟩
    · exact (by decide : (0x2E0000 &&& PAGE_MASK).toNat / 4096 < sampleLayout.pages)
    · decide
    · have hpd : (0x2E0000 + 4096 + 4096 : UInt32).toNat = 0x2E2000 := rfl
      have hpg : sampleLayout.pages = 0x300 := rfl
      grind [UInt32.toNat_toUInt64, toNat_pdAt]

theorem sample_pmm (m : UInt64) : ∃ pmm,
    pmm_init_limit m sampleLayout.kernel_end (identityLimit sampleSnapshot.flags) = some pmm ∧
      Consistent pmm ∧ (∀ p, Manages pmm p → ¬ pmm.Used p) ∧
      pmm.managed_pages = (if (usableBytes m 0x100000000 / 4096).toUInt32 > PMM_MAX_PAGES
        then PMM_MAX_PAGES else (usableBytes m 0x100000000 / 4096).toUInt32) ∧
      pmm.reserved_pages = (if 0x300 > pmm.managed_pages then pmm.managed_pages else 0x300) := by
  obtain ⟨pmm, hpm, hc, -, hf⟩ := pmm_init_limit_eq m sampleLayout.kernel_end
    (identityLimit sampleSnapshot.flags)
  obtain ⟨hm, hr⟩ := pmm_init_limit_fields (identityLimit_eq _).2.2 hpm
  exact ⟨pmm, hpm, hc, fun p hp => hf p hp.1 hp.2, hm, hr⟩

theorem a_small_machine_keeps_its_pages : ∃ pmm,
    pmm_init_limit 131072 sampleLayout.kernel_end (identityLimit sampleSnapshot.flags) = some pmm ∧
    Always (Machine.step (fun _ => 0) sampleSnapshot) FreePagesLead
      ⟨(vmm_init sampleSnapshot.flags sampleLayout (sampleVmm pmm)).1, samplePci, noScreen⟩
      [Event.selfTest, Event.allocPages 3] := by
  obtain ⟨pmm, hpmm, -, -, hmanaged, -⟩ := sample_pmm 131072
  have hbooted := sample_booted hpmm
  have hsmall : pmm.managed_pages.toNat ≤ 0x40000 := by
    rw [hmanaged]
    decide
  rw [show pmm = (sampleVmm pmm).pmm from rfl, ← hbooted.identity.sound.fit.managed] at hsmall
  exact ⟨pmm, hpmm, free_pages_lead_to_themselves 131072 sampleSnapshot sampleLayout (sampleVmm pmm)
    _ _ samplePci noScreen (fun _ => 0) _ hbooted (spares_test_and_alloc hsmall 3)⟩

theorem a_free_page_is_unmapped : ∃ pmm,
    pmm_init_limit 2097152 sampleLayout.kernel_end (identityLimit sampleSnapshot.flags) = some pmm ∧
    ¬ FreePagesLead (Machine.step (fun _ => 0) sampleSnapshot
      ⟨(vmm_init sampleSnapshot.flags sampleLayout (sampleVmm pmm)).1, samplePci, noScreen⟩
      Event.selfTest) := by
  obtain ⟨pmm, hpmm, hconsistent, hfree, hmanaged, hreserved⟩ := sample_pmm 2097152
  have hbooted := sample_booted hpmm
  have hmanaged : pmm.managed_pages = 0x80000 := hmanaged.trans (by decide)
  have hreserved : pmm.reserved_pages = 0x300 := by
    rw [hreserved, hmanaged]
    decide
  have hlow : pmm.reserved_pages.toNat = 0x300 := by rw [hreserved]; rfl
  have hhigh : pmm.managed_pages.toNat = 0x80000 := by rw [hmanaged]; rfl
  have htest : testPage.val = 0x40000 := rfl
  have hmanages : Manages pmm testPage := ⟨by omega, by omega⟩
  have hstocked : Stocked allocPage (FreeFrom pmm testPage) :=
    FreeFrom.stocked (by omega) (by omega)
  have hturns : sampleLayout.turns ≤ 0x1000 := by decide
  have hstart : FreeFrom pmm testPage (0 + 13 + 3 * sampleLayout.turns + 3) pmm := by
    refine ⟨hconsistent, rfl, rfl, pmm.reserved_pages.toNat, le_refl _, by omega, fun f hf => ?_⟩
    exact iff_of_false (hfree f hf) (by have := hf.1; omega)
  have hlost : Lost pmm (vmm_self_test (vmm_init sampleSnapshot.flags sampleLayout
      (sampleVmm pmm)).1).1 :=
    selfTest_loses hstocked hmanages hbooted.identity
      (vmm_init_served hstocked sampleSnapshot.flags sampleLayout hstart) (by omega) (by omega)
  exact ⟨pmm, hpmm, Lost.not_lead hlost hmanages⟩

end mvh.identity
