-- Runs of the calls of `vmm.c` from the tables at boot on: in every run, whatever pages
-- the allocator gives and whenever it has none, each call does to the map of virtual
-- pages what it should, and to no other page anything.
import Mathlib.Algebra.Ring.Nat
import MvhKernel.VmmBoot

open flat_memory table_tree masks runs

namespace mvh.vmm

variable {A : Type}

inductive Call
  | map (virtual_address physical_address flags : UInt64)
  | unmap (virtual_address : UInt64)
  | query (virtual_address : UInt64)

/-- Virtual addresses of 48 bits, physical addresses of 52 bits and the flags of the header. -/
def Call.Admitted : Call → Prop
  | .map v p flags => v.toNat < 2 ^ 48 ∧ p.toNat < 2 ^ 52 ∧ In flags VMM_FLAGS
  | .unmap v => v.toNat < 2 ^ 48
  | .query v => v.toNat < 2 ^ 48

section
variable (pmm_alloc_pages : Mem → A → UInt64 × A)

def Vmm.step (s : Vmm A) : Call → Vmm A
  | .map v p flags => (vmm_map_page pmm_alloc_pages s v p flags).1
  | .unmap v => (vmm_unmap_page pmm_alloc_pages s v).1
  | .query v => (vmm_query_page pmm_alloc_pages s v).1

/-- The allocator gives pages that are not in use as tables, or null. -/
def GivesPages (root : Nat) : Prop :=
  ∀ m a, (pmm_alloc_pages m a).1 ≠ 0 → In (pmm_alloc_pages m a).1 PAGE_MASK ∧
    ¬ Uses child root (tables m) ((pmm_alloc_pages m a).1.toNat / 4096)

/-- The call changes the page that it names, if any, and no other one. -/
def Changes (s s' : Vmm A) (only : Option Nat) : Prop :=
  ∀ page : Page, only ≠ some page.val → s'.space page = s.space page

def Follows (s s' : Vmm A) : Prop :=
  ((vmm_mapped_pages s').toNat : Int) - (vmm_mapped_pages s).toNat =
    (s'.mappedPages : Int) - s.mappedPages

def Right (s : Vmm A) : Call → Prop
  | .map v p flags =>
    let (s', result) := vmm_map_page pmm_alloc_pages s v p flags
    (result = 0 → ∀ offset : UInt64, offset.toNat < 4096 →
      (vmm_query_page pmm_alloc_pages s' (v + offset)).2 =
        some (p + offset, flags ||| VMM_PRESENT)) ∧
    Changes s s' (if result = 0 then some (v.toNat / 4096) else none) ∧ Follows s s'
  | .unmap v =>
    let (s', result) := vmm_unmap_page pmm_alloc_pages s v
    (result = 0 → (∀ page : Page, page.val = v.toNat / 4096 → s'.space page = none) ∧
      (vmm_query_page pmm_alloc_pages s' v).2 = none) ∧
    Changes s s' (if result = 0 then some (v.toNat / 4096) else none) ∧ Follows s s'
  | .query v =>
    let (s', _) := vmm_query_page pmm_alloc_pages s v
    Changes s s' none ∧ Follows s s'

end

/-! ## One call -/

section
variable {pmm_alloc_pages : Mem → A → UInt64 × A}

theorem GivesPages.supplies {r : Nat} (h : GivesPages pmm_alloc_pages r) :
    Supplies pmm_alloc_pages r fun _ _ => True where
  shrinks _ _ _ _ _ := trivial
  refused _ _ _ _ := trivial
  aligned m a _ := by
    by_cases hn : (pmm_alloc_pages m a).1 = 0
    · rw [hn]
      decide
    · exact (h m a hn).1
  fresh m a _ hgiven := (h m a hgiven).2
  given _ _ _ _ := trivial

/-- The invariant of a run. -/
structure InStep (root : Nat) (s : Vmm A) : Prop where
  root : s.root = root
  sound : Sound (fun _ _ => True) s
  counted : Counted s

theorem follows_of_counted {s s' : Vmm A} (h : Counted s) (h' : Counted s') : Follows s s' := by
  unfold Follows vmm_mapped_pages
  unfold Counted at h h'
  rw [h, h']

theorem Keeps.changes {f : (Nat → Prop) → A → Prop} {s s' : Vmm A} (h : Keeps f s s')
    (only : Option Nat) : Changes s s' only := by
  intro p _
  rw [h.space]

theorem Writes.changes {f : (Nat → Prop) → A → Prop} {s s' : Vmm A} {p : Page} {e : UInt64}
    (h : Writes f s s' p e) : Changes s s' (some p.val) := by
  intro o ho
  rw [h.space, Function.update_of_ne]
  rintro rfl
  exact ho rfl

theorem InStep.keeps {r : Nat} {s s' : Vmm A} (h : InStep r s)
    (hk : Keeps (fun _ _ => True) s s') : InStep r s' :=
  ⟨hk.root.trans h.root, hk.sound, hk.counted h.counted⟩

theorem InStep.writes {r : Nat} {s s' : Vmm A} (h : InStep r s) {p : Page} {e : UInt64}
    (hw : Writes (fun _ _ => True) s s' p e) (hc : Counted s') : InStep r s' := by
  refine ⟨?_, hw.sound, hc⟩
  rw [← h.root]
  unfold Vmm.root active_pml4
  rw [hw.cr3]

theorem InStep.step {r : Nat} (hg : GivesPages pmm_alloc_pages r) {s : Vmm A}
    (h : InStep r s) {c : Call} (hc : c.Admitted) :
    InStep r (s.step pmm_alloc_pages c) ∧ Right pmm_alloc_pages s c := by
  have hs : Supplies pmm_alloc_pages s.root fun _ _ => True := h.root ▸ hg.supplies
  cases c with
  | map v p f =>
    obtain ⟨hv, hp, hf⟩ := hc
    have hpg : v.toNat / 4096 = (pageOf v hv).val := rfl
    unfold Right Vmm.step
    rcases vmm_map_page_spec hs h.sound h.counted p f hpg with
      ⟨s', hcl, hk⟩ | ⟨s', hcl, ha, hph, hcn, hw⟩
    · have hn := h.keeps hk
      simp only [hcl]
      exact ⟨hn, fun hok => absurd hok (by decide), hk.changes _,
        follows_of_counted h.counted hn.counted⟩
    · have hm : In p PAGE_MASK := (in_page_mask_iff p).mpr ⟨hph, hp⟩
      rw [hm] at hw
      simp only [hcl, if_pos]
      exact ⟨h.writes hw hcn,
        fun _ o ho => query_after_map hpg ha hm hf ho hw,
        hw.changes, follows_of_counted h.counted hcn⟩
  | unmap v =>
    have hpg : v.toNat / 4096 = (pageOf v hc).val := rfl
    unfold Right Vmm.step
    rcases vmm_unmap_page_spec hs h.sound h.counted hpg with
      ⟨s', hcl, hk⟩ | ⟨s', hcl, ha, hcn, hw⟩
    · have hn := h.keeps hk
      simp only [hcl]
      exact ⟨hn, fun hok => absurd hok (by decide), hk.changes _,
        follows_of_counted h.counted hn.counted⟩
    · simp only [hcl, if_pos]
      refine ⟨h.writes hw hcn, fun _ => ⟨fun pg hv => ?_, ?_⟩, hw.changes,
        follows_of_counted h.counted hcn⟩
      · grind [Fin.ext, space_after_unmap]
      · exact query_after_unmap hpg hw
  | query v =>
    have hk := vmm_query_page_keeps hs h.sound v
    have hn := h.keeps hk
    exact ⟨hn, hk.changes none, follows_of_counted h.counted hn.counted⟩

/-! ## Runs -/

/-- The counter at boot, as `vmm_init` sets it: the number of small pages in the first GiBs. -/
def bootCount (gib : Nat) : UInt64 := UInt64.ofNat gib * 512 * 512

theorem BootTables.inStep {gib : Nat} {s : Vmm A} {p : UInt64} {pd : Fin 512 → UInt64}
    (h : BootTables gib s p pd) (hc : s.mapped_page_count = bootCount gib) :
    InStep s.root s := by
  refine ⟨rfl, ⟨h.unshared, trivial⟩, ?_⟩
  have hf := h.few
  unfold Counted
  rw [h.mappedPages, hc]
  grind [bootCount]

/-- In every run from the tables at boot on, each call does to the map of virtual pages what it
should. -/
theorem the_tables_stand_for_a_map (gib : Nat) (s : Vmm A) (pdpt : UInt64) (pd : Fin 512 → UInt64)
    (hboot : BootTables gib s pdpt pd) (hcount : s.mapped_page_count = bootCount gib)
    (hgives : GivesPages pmm_alloc_pages s.root) (calls : List Call)
    (hadmitted : ∀ c ∈ calls, c.Admitted) :
    Each (Vmm.step pmm_alloc_pages) (Right pmm_alloc_pages) s calls :=
  each_of_each (fun _ _ h hc => (h.step hgives hc).1) (fun _ _ h hc => (h.step hgives hc).2)
    (hboot.inStep hcount) (each_of_forall hadmitted s)

end

scoped instance pages : NeZero 64 := ⟨by decide⟩

def bootState : Vmm (Fin 64) where
  mem := bootstrap_paging (fun _ => 0) 0x200000
  cr3 := 0x200000
  mapped_page_count := bootCount 4
  pmm := 0

open Classical in
/-- Pages from 4 MiB on, one after the other, as long as they are not tables. -/
noncomputable def pagesInOrder (root : Nat) (m : Mem) (n : Fin 64) : UInt64 × Fin 64 :=
  if Uses child root (tables m) (1024 + n.val) then (0, n)
  else (UInt64.ofNat (4096 * (1024 + n.val)), n + 1)

theorem pagesInOrder_gives (root : Nat) : GivesPages (pagesInOrder root) root := by
  intro m n
  have ha : (UInt64.ofNat (4096 * (1024 + n.val))).toNat = 4096 * (1024 + n.val) := by grind
  unfold pagesInOrder
  split
  · exact fun hne => absurd rfl hne
  · rename_i hu
    intro _
    refine ⟨(in_page_mask_iff _).mpr ?_, ?_⟩
    · simp only [ha]
      omega
    grind

theorem tables_clear (f : Nat) (i : Fin 512) : tables (fun _ => 0) f i = 0 := by
  simp only [tables, load64, load32]
  decide

theorem bootState_tables : BootTables 4 bootState (0x200000 + 4096 : UInt32).toUInt64
    fun k => (pdAt (0x200000 + 4096 + 4096) k).toUInt64 :=
  bootstrap_tables (f := 512) rfl (by decide) (fun i => ⟨tables_clear _ i, tables_clear _ i⟩) rfl rfl

theorem a_page_is_mapped_and_unmapped :
    Each (Vmm.step (pagesInOrder bootState.root)) (Right (pagesInOrder bootState.root)) bootState
      [Call.map 0x40000000 0x500000 VMM_WRITABLE, Call.query 0x40000800,
        Call.unmap 0x40000000] := by
  refine the_tables_stand_for_a_map 4 bootState _ _ bootState_tables rfl (pagesInOrder_gives _) _ ?_
  intro c hc
  simp only [List.mem_cons, List.not_mem_nil, or_false] at hc
  rcases hc with rfl | rfl | rfl
  · exact ⟨by decide, by decide, by decide⟩
  · exact (by decide : (0x40000800 : UInt64).toNat < 2 ^ 48)
  · exact (by decide : (0x40000000 : UInt64).toNat < 2 ^ 48)

end mvh.vmm
