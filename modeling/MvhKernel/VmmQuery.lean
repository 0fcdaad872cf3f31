-- Whether `vmm_query_page` tells the truth.
import MvhKernel.VmmRefine

open flat_memory table_tree masks runs

namespace mvh.vmm

variable {A : Type} {pmm_alloc_pages : Mem → A → UInt64 × A}

/-! ## Calls with any arguments -/

def low (v : UInt64) : UInt64 := v &&& 0xFFFFFFFFFFFF

theorem toNat_low (v : UInt64) : (low v).toNat = v.toNat % 2 ^ 48 := by
  unfold low
  rw [UInt64.toNat_and]
  exact Nat.and_two_pow_sub_one_eq_mod _ 48

theorem low_lt (v : UInt64) : (low v).toNat < 2 ^ 48 := by
  rw [toNat_low]
  exact Nat.mod_lt _ (by decide)

theorem slot_low (t v : UInt64) (l : Nat) {shift : UInt64}
    (hs : shift.toNat = 12 + 9 * l) (hl : l ≤ 3) :
    slot t (low v >>> shift) = slot t (v >>> shift) := by
  unfold slot
  rw [toNat_level_bits _ l hs hl, toNat_level_bits _ l hs hl, toNat_low]
  interval_cases l <;> omega

theorem walk_low (s : Vmm A) (v : UInt64) (create : Bool) :
    walk pmm_alloc_pages s (low v) create = walk pmm_alloc_pages s v create := by
  have h3 (t : UInt64) : slot t (low v >>> 39) = slot t (v >>> 39) :=
    slot_low t v 3 rfl (by decide)
  have h2 (t : UInt64) : slot t (low v >>> 30) = slot t (v >>> 30) :=
    slot_low t v 2 rfl (by decide)
  have h1 (t : UInt64) : slot t (low v >>> 21) = slot t (v >>> 21) :=
    slot_low t v 1 rfl (by decide)
  have h0 (t : UInt64) : slot t (low v >>> 12) = slot t (v >>> 12) :=
    slot_low t v 0 rfl (by decide)
  unfold walk
  simp only [h3, h2, h1, h0]

theorem low_offset (v : UInt64) : low v &&& (4096 - 1) = v &&& (4096 - 1) := by
  have hin : (0xFFFFFFFFFFFF : UInt64) &&& (4096 - 1) = 4096 - 1 := by decide
  unfold low
  rw [UInt64.and_assoc, hin]

theorem InStep.next {r : Nat} (hg : GivesPages pmm_alloc_pages r) {s : Vmm A}
    (h : InStep r s) (c : Call) : InStep r (s.step pmm_alloc_pages c) := by
  have hsup : Supplies pmm_alloc_pages s.root fun _ _ => True := h.root ▸ hg.supplies
  cases c with
  | map v p flags =>
    have hl : vmm_map_page pmm_alloc_pages s (low v) p flags =
        vmm_map_page pmm_alloc_pages s v p flags := by
      unfold vmm_map_page
      rw [low_offset, walk_low]
    show InStep r (vmm_map_page pmm_alloc_pages s v p flags).1
    rw [← hl]
    have hp : (low v).toNat / 4096 = (pageOf (low v) (low_lt v)).val := rfl
    rcases vmm_map_page_spec hsup h.sound h.counted p flags hp with
      ⟨s', hc, hk⟩ | ⟨s', hc, -, -, hcn, hw⟩
    · rw [hc]
      exact h.keeps hk
    · rw [hc]
      exact h.writes hw hcn
  | unmap v =>
    have hl : vmm_unmap_page pmm_alloc_pages s (low v) = vmm_unmap_page pmm_alloc_pages s v := by
      unfold vmm_unmap_page
      rw [low_offset, walk_low]
    show InStep r (vmm_unmap_page pmm_alloc_pages s v).1
    rw [← hl]
    have hp : (low v).toNat / 4096 = (pageOf (low v) (low_lt v)).val := rfl
    rcases vmm_unmap_page_spec hsup h.sound h.counted hp with
      ⟨s', hc, hk⟩ | ⟨s', hc, -, hcn, hw⟩
    · rw [hc]
      exact h.keeps hk
    · rw [hc]
      exact h.writes hw hcn
  | query v => exact h.keeps (vmm_query_page_keeps hsup h.sound v)

/-! ## The mapping of a page -/

/-- What an entry of the last level says, with all the bits of the entry that are not the address. -/
def whole (e : UInt64) : Option Mapping :=
  if e &&& VMM_PRESENT = 0 then none else some ⟨e &&& PAGE_MASK, e &&& ~~~ PAGE_MASK⟩

/-- Where a page leads, through an entry of 4 KiB or through one of 2 MiB. -/
def Vmm.mapped (s : Vmm A) (page : Nat) : Option Mapping :=
  match entryAt child s.root (tables s.mem) (pathOf page) with
  | some e => whole e
  | none => (entryAt child s.root (tables s.mem) (pathOf page).tail).bind fun e =>
      large e (index page 0)

def Vmm.InLarge (s : Vmm A) (page : Nat) : Prop :=
  ∃ f, s.tableAt (pathOf page).tail.tail = some f ∧
    tables s.mem f (index page 1) &&& VMM_PRESENT ≠ 0 ∧
    tables s.mem f (index page 1) &&& PAGE_HUGE ≠ 0

section
variable {s : Vmm A} {page f : Nat}

theorem mapped_of_table (hf : s.tableAt (pathOf page).tail = some f) :
    s.mapped page = whole (tables s.mem f (index page 0)) := by
  have he : entryAt child s.root (tables s.mem) (pathOf page) =
      some (tables s.mem f (index page 0)) := entryAt_cons hf (index page 0)
  unfold Vmm.mapped
  rw [he]

theorem mapped_of_directory (hf : s.tableAt (pathOf page).tail.tail = some f)
    (hn : s.tableAt (pathOf page).tail = none) :
    s.mapped page = large (tables s.mem f (index page 1)) (index page 0) := by
  have he : entryAt child s.root (tables s.mem) (pathOf page).tail =
      some (tables s.mem f (index page 1)) := entryAt_cons hf (index page 1)
  unfold Vmm.mapped
  rw [entryAt_below hn, he]
  rfl

theorem no_table_below {path : List (Fin 512)} (hn : s.tableAt path = none) (i : Fin 512) :
    s.tableAt (i :: path) = none := by
  rcases ht : s.tableAt (i :: path) with _ | g
  · rfl
  · obtain ⟨above, ha, -⟩ := tableAt_above ht
    exact absurd (hn.symm.trans ha) nofun

theorem mapped_of_none (hn : s.tableAt (pathOf page).tail.tail = none) :
    s.mapped page = none := by
  have hb : s.tableAt (pathOf page).tail = none := no_table_below hn (index page 1)
  unfold Vmm.mapped
  rw [entryAt_below hb, entryAt_below hn]
  rfl

end

theorem whole_entry {p f : UInt64} (hp : In p PAGE_MASK) (hf : In f VMM_FLAGS) :
    whole (p ||| VMM_PRESENT ||| f) = some ⟨p, VMM_PRESENT ||| f⟩ := by
  rw [whole, if_neg (entry_present hp), entry_address hp hf, entry_rest hp hf]

theorem whole_splitEntry {e : UInt64} (h : e &&& VMM_PRESENT ≠ 0) (hh : e &&& PAGE_HUGE ≠ 0)
    (i : Fin 512) : whole (splitEntry e i) = large e i := by
  unfold splitEntry
  rw [whole_entry (in_mask_of_large e i) ((in_and _ _).mono (by decide)), split_flags h,
    large_of_large h hh]

/-! ## The walk of a query -/

def NoPage (pmm_alloc_pages : Mem → A → UInt64 × A) (s : Vmm A) : Prop :=
  (pmm_alloc_pages s.mem s.pmm).1 = 0

/-- The walk comes to an entry that says where the page leads, or it ends early because the page
leads nowhere. -/
def Arrives (s : Vmm A) (page : Nat) (r : Option Nat × Vmm A) : Prop :=
  (r = (none, s) ∧ s.mapped page = none) ∨
    ∃ entry s', r = (some entry, s') ∧ whole (load64 s'.mem entry) = s.mapped page

variable (pmm_alloc_pages) in
theorem enter_absent {s : Vmm A} {e : Nat} (h : load64 s.mem e &&& VMM_PRESENT = 0) :
    enter pmm_alloc_pages s e false = (none, s) := by
  unfold enter
  rw [if_pos h]
  rfl

section
variable {fits : (Nat → Prop) → A → Prop} {s : Vmm A}
variable (hsup : Supplies pmm_alloc_pages s.root fits) (h : Sound fits s)
include hsup h

theorem enterLast_arrives {v : UInt64} {page f : Nat} (hp : v.toNat / 4096 = page)
    (hf : s.tableAt (pathOf page).tail.tail = some f) :
    let r := match enterLast pmm_alloc_pages s (4096 * f + 8 * (index page 1).val) false with
      | (none, s) => (none, s)
      | (some pt, s) => (some (slot pt (v >>> 12)), s)
    (s.InLarge page ∧ NoPage pmm_alloc_pages s ∧
      r = (none, { s with pmm := (pmm_alloc_pages s.mem s.pmm).2 })) ∨
    (¬ (s.InLarge page ∧ NoPage pmm_alloc_pages s) ∧ Arrives s page r) := by
  have he : load64 s.mem (4096 * f + 8 * (index page 1).val) = tables s.mem f (index page 1) := rfl
  have hn : s.tableAt (pathOf page).tail = child 2 (tables s.mem f (index page 1)) :=
    tableAt_cons hf (index page 1)
  have hl : s.InLarge page ↔ tables s.mem f (index page 1) &&& VMM_PRESENT ≠ 0 ∧
      tables s.mem f (index page 1) &&& PAGE_HUGE ≠ 0 := by
    refine ⟨?_, fun hb => ⟨f, hf, hb⟩⟩
    rintro ⟨g, hg, hb⟩
    cases hf.symm.trans hg
    exact hb
  by_cases hb : tables s.mem f (index page 1) &&& VMM_PRESENT ≠ 0 ∧
      tables s.mem f (index page 1) &&& PAGE_HUGE ≠ 0
  · have hmp := mapped_of_directory hf (hn.trans (child_of_large hb.2))
    have hs : enterLast pmm_alloc_pages s (4096 * f + 8 * (index page 1).val) false =
        split_huge_page pmm_alloc_pages s (4096 * f + 8 * (index page 1).val) := if_pos hb
    rw [hs]
    rcases split_huge_page_cases hsup h (f := f) (index page 1) with
      ⟨hc, hnl, -⟩ | ⟨table, pmm, m, hc, hgv, ht, hfr, -, hm⟩
    · rw [hc]
      exact Or.inl ⟨hl.mpr hb, hnl, rfl⟩
    · rw [hc]
      have hap : ¬ (table.toNat / 4096 = f ∧ index page 0 = index page 1) := by
        rintro ⟨rfl, -⟩
        exact hfr ⟨_, hf⟩
      refine Or.inr ⟨fun hno => hgv hno.2, Or.inr ⟨_, _, rfl, ?_⟩⟩
      rw [slot_eq ht v 0 rfl (by decide), hp, hmp, ← whole_splitEntry hb.1 hb.2]
      refine congrArg whole ?_
      show tables (store64 m _ _) (table.toNat / 4096) (index page 0) = _
      rw [tables_store, Tables.set_ne _ _ hap, hm]
      exact if_pos rfl
  · have hnt : ¬ (s.InLarge page ∧ NoPage pmm_alloc_pages s) := fun hno => hb (hl.mp hno.1)
    refine Or.inr ⟨hnt, ?_⟩
    unfold enterLast
    rw [he, if_neg hb]
    by_cases ha : tables s.mem f (index page 1) &&& VMM_PRESENT = 0
    · have hmp := mapped_of_directory hf (hn.trans (child_of_absent ha))
      rw [if_pos ha]
      exact Or.inl ⟨rfl, hmp.trans (large_of_absent ha _)⟩
    · have hsm : tables s.mem f (index page 1) &&& PAGE_HUGE = 0 := by grind
      have ht := hn.trans (child_of_table (by decide) ha fun _ => hsm)
      rw [if_neg ha]
      refine Or.inr ⟨_, s, rfl, ?_⟩
      rw [slot_eq (in_and _ _) v 0 rfl (by decide), hp, mapped_of_table ht]
      rfl

theorem walk_arrives {v : UInt64} {page : Nat} (hp : v.toNat / 4096 = page) :
    (s.InLarge page ∧ NoPage pmm_alloc_pages s ∧ walk pmm_alloc_pages s v false =
      (none, { s with pmm := (pmm_alloc_pages s.mem s.pmm).2 })) ∨
    (¬ (s.InLarge page ∧ NoPage pmm_alloc_pages s) ∧
      Arrives s page (walk pmm_alloc_pages s v false)) := by
  have hs : slot (active_pml4 s) (v >>> 39) = 4096 * s.root + 8 * (index page 3).val := by
    have ht : In (active_pml4 s) PAGE_MASK := in_and _ _
    rw [slot_eq ht v 3 rfl (by decide), hp]
    rfl
  have hr : s.tableAt [] = some s.root := rfl
  have hnw (hn : s.tableAt (pathOf page).tail.tail = none)
      (hw : walk pmm_alloc_pages s v false = (none, s)) :
      ¬ (s.InLarge page ∧ NoPage pmm_alloc_pages s) ∧
        Arrives s page (walk pmm_alloc_pages s v false) := by
    refine ⟨?_, Or.inl ⟨hw, mapped_of_none hn⟩⟩
    rintro ⟨⟨f, hf, -⟩, -⟩
    exact absurd (hn.symm.trans hf) nofun
  by_cases h3 : tables s.mem s.root (index page 3) &&& VMM_PRESENT = 0
  · have hn := (tableAt_cons hr (index page 3)).trans (child_of_absent h3)
    refine Or.inr (hnw (no_table_below hn (index page 2)) ?_)
    unfold walk
    rw [hs, enter_absent pmm_alloc_pages h3]
  have hc3 : child ([] : List (Fin 512)).length (tables s.mem s.root (index page 3)) = some _ :=
    child_of_table (by decide) h3 nofun
  have hp3 := (tableAt_cons hr (index page 3)).trans hc3
  obtain ⟨t3, he3, hi3, he⟩ := enter_found pmm_alloc_pages hc3 false
  rw [← he] at hp3
  by_cases h2 : tables s.mem (t3.toNat / 4096) (index page 2) &&& VMM_PRESENT = 0
  · have hn := (tableAt_cons hp3 (index page 2)).trans (child_of_absent h2)
    refine Or.inr (hnw hn ?_)
    unfold walk
    rw [hs, he3]
    simp only
    rw [slot_eq hi3 v 2 rfl (by decide), hp, enter_absent pmm_alloc_pages h2]
  have hc2 : child [index page 3].length
      (tables s.mem (t3.toNat / 4096) (index page 2)) = some _ :=
    child_of_table (by simp) h2 nofun
  have hp2 := (tableAt_cons hp3 (index page 2)).trans hc2
  obtain ⟨t2, he2, hi2, heq⟩ :=
    enter_found pmm_alloc_pages hc2 false
  rw [← heq] at hp2
  have hl := enterLast_arrives hsup h hp hp2
  grind [slot_eq, walk]

end

/-! ## Queries -/

def answer (v : UInt64) (m : Mapping) : UInt64 × UInt64 := (m.physical + v % 4096, m.flags)

/-- The query says where the address leads, and an unmap that fails changes no translation. -/
structure Truthful (pmm_alloc_pages : Mem → A → UInt64 × A) (s : Vmm A) (v : UInt64) : Prop where
  query : (vmm_query_page pmm_alloc_pages s v).2 = (s.mapped (v.toNat / 4096)).map (answer v)
  unmap : v.toNat % 4096 = 0 → (s.mapped (v.toNat / 4096)).isSome →
    (vmm_unmap_page pmm_alloc_pages s v).2 = 0 ∨
      ∀ page, (vmm_unmap_page pmm_alloc_pages s v).1.mapped page = s.mapped page

theorem mapped_of_large {s : Vmm A} {page : Nat} (h : s.InLarge page) :
    (s.mapped page).isSome = true := by
  obtain ⟨f, hf, hp, hh⟩ := h
  have hn : s.tableAt (pathOf page).tail = none :=
    (tableAt_cons hf (index page 1)).trans (child_of_large hh)
  grind [mapped_of_directory, large_of_large]

theorem answer_whole (e v : UInt64) :
    (if e &&& VMM_PRESENT = 0 then none
      else some ((e &&& PAGE_MASK) ||| (v &&& (4096 - 1)), e &&& ~~~ PAGE_MASK)) =
      (whole e).map (answer v) := by
  have ho : v &&& (4096 - 1) = (0 + v % 4096) &&& (4096 - 1) := by
    grind [low_bits, UInt64.zero_add, UInt64.toNat_mod, Nat.mod_mod, UInt64.toNat_inj.mp]
  have hlt : (v % 4096).toNat < 4096 := by grind
  unfold whole
  split
  · rfl
  · rw [ho, page_or_offset (in_and e PAGE_MASK) rfl hlt]
    rfl

section
variable {fits : (Nat → Prop) → A → Prop} {s : Vmm A}
variable (hsup : Supplies pmm_alloc_pages s.root fits) (h : Sound fits s)
include hsup h

theorem query_of_no_page {v : UInt64} (hl : s.InLarge (v.toNat / 4096))
    (hno : NoPage pmm_alloc_pages s) : (vmm_query_page pmm_alloc_pages s v).2 = none := by
  unfold vmm_query_page
  rcases walk_arrives hsup h (v := v) rfl with ⟨-, -, hw⟩ | ⟨hn, -⟩
  · rw [hw]
  · exact absurd ⟨hl, hno⟩ hn

theorem query_iff (v : UInt64) :
    (vmm_query_page pmm_alloc_pages s v).2 = (s.mapped (v.toNat / 4096)).map (answer v) ↔
      ¬ (s.InLarge (v.toNat / 4096) ∧ NoPage pmm_alloc_pages s) := by
  constructor
  · rintro hq ⟨hl, hno⟩
    have hs := mapped_of_large hl
    rw [query_of_no_page hsup h hl hno] at hq
    rw [Option.map_eq_none_iff.mp hq.symm] at hs
    cases hs
  · intro hn
    unfold vmm_query_page
    rcases walk_arrives hsup h (v := v) rfl with
      ⟨hl, hno, -⟩ | ⟨-, ⟨hw, hm⟩ | ⟨entry, s', hw, hwh⟩⟩
    · exact absurd ⟨hl, hno⟩ hn
    · rw [hw, hm]
      rfl
    · rw [hw, ← hwh, ← answer_whole]
      simp only
      split <;> rfl

theorem unmap_of_mapped {v : UInt64} (hm : (s.mapped (v.toNat / 4096)).isSome = true) :
    (vmm_unmap_page pmm_alloc_pages s v).2 = 0 ∨
      ∀ page, (vmm_unmap_page pmm_alloc_pages s v).1.mapped page = s.mapped page := by
  unfold vmm_unmap_page
  split
  · exact Or.inr fun _ => rfl
  rcases walk_arrives hsup h (v := v) rfl with
    ⟨-, -, hw⟩ | ⟨-, ⟨-, hn⟩ | ⟨entry, s', hw, hwh⟩⟩
  · rw [hw]
    exact Or.inr fun _ => rfl
  · rw [hn] at hm
    cases hm
  · have hp : load64 s'.mem entry &&& VMM_PRESENT ≠ 0 := by grind [whole]
    simp [hw, hp]

theorem truthful_iff (v : UInt64) : Truthful pmm_alloc_pages s v ↔
    ¬ (s.InLarge (v.toNat / 4096) ∧ NoPage pmm_alloc_pages s) := by
  rw [← query_iff hsup h]
  exact ⟨fun ht => ht.query, fun hq => ⟨hq, fun _ => unmap_of_mapped hsup h⟩⟩

end

/-- In every state that calls reach from the tables at boot, with any arguments and whatever pages
the allocator gives, the query of an address is truthful just when the address does not lie in a
page of 2 MiB or the allocator has a page to give. -/
theorem a_query_is_truthful_iff (gib : Nat) (s : Vmm A) (pdpt : UInt64) (pd : Fin 512 → UInt64)
    (hboot : BootTables gib s pdpt pd) (hcount : s.mapped_page_count = bootCount gib)
    (hgives : GivesPages pmm_alloc_pages s.root) (calls : List Call) (v : UInt64) :
    let s' := run (Vmm.step pmm_alloc_pages) s calls
    Truthful pmm_alloc_pages s' v ↔
      ¬ (s'.InLarge (v.toNat / 4096) ∧ NoPage pmm_alloc_pages s') := by
  intro s'
  have h : InStep s.root s' :=
    run_keeps (fun _ c hin => hin.next hgives c) (hboot.inStep hcount) calls
  exact truthful_iff (h.root ▸ hgives.supplies) h.sound v

/-! ## The tables at boot -/

theorem mapped_eq_mapping {s : Vmm A} {page : Nat} (hn : s.tableAt (pathOf page).tail = none) :
    s.mapped page = s.mapping page := by
  unfold Vmm.mapped Vmm.mapping translate
  rw [entryAt_below hn]

theorem inLarge_of_no_table {s : Vmm A} {page : Nat} (hn : s.tableAt (pathOf page).tail = none)
    (hm : (s.mapped page).isSome = true) : s.InLarge page := by
  rcases hd : s.tableAt (pathOf page).tail.tail with _ | f
  · grind [mapped_of_none]
  · rw [mapped_of_directory hd hn, large] at hm
    refine ⟨f, hd, ?_⟩
    grind

theorem bootState_mapped :
    bootState.mapped 1 = some ⟨UInt64.ofNat (1 * 4096), VMM_PRESENT ||| VMM_WRITABLE⟩ := by
  have hs := bootState_tables.space (1 : Page)
  rw [mapped_eq_mapping (bootState_tables.no_last_table 1)]
  exact hs

theorem bootState_inLarge : bootState.InLarge 1 := by
  refine inLarge_of_no_table (bootState_tables.no_last_table 1) ?_
  rw [bootState_mapped]
  rfl

theorem bootState_has_page : ¬ NoPage (pagesInOrder bootState.root) bootState := by
  have hfree : ¬ Uses child bootState.root (tables bootState.mem) (1024 + bootState.pmm.val) := by
    rintro ⟨path, hpath⟩
    rcases bootState_tables.of_tableAt hpath with ⟨-, hf⟩ | ⟨-, hf⟩ | ⟨k, hk, -, hf⟩
    · exact absurd hf (by decide)
    · exact absurd hf (by decide)
    · have hbelow : k.val = 0 ∨ k.val = 1 ∨ k.val = 2 ∨ k.val = 3 := by omega
      rcases hbelow with hk | hk | hk | hk <;> rw [hk] at hf <;> exact absurd hf (by decide)
  have hgiven : pagesInOrder bootState.root bootState.mem bootState.pmm =
      (UInt64.ofNat (4096 * (1024 + bootState.pmm.val)), bootState.pmm + 1) := if_neg hfree
  unfold NoPage
  rw [hgiven]
  decide

theorem a_large_page_is_split_for_a_query :
    Truthful (pagesInOrder bootState.root) bootState 0x1800 :=
  (a_query_is_truthful_iff 4 bootState _ _ bootState_tables rfl (pagesInOrder_gives _) []
    0x1800).mpr fun hno => bootState_has_page hno.2

def noPages (_ : Mem) (n : Fin 64) : UInt64 × Fin 64 := (0, n)

/-- The page at 4 KiB is mapped at boot, but without a free page its query fails. -/
theorem a_mapped_page_is_not_found :
    bootState.mapped 1 = some ⟨0x1000, VMM_PRESENT ||| VMM_WRITABLE⟩ ∧
      (vmm_query_page noPages bootState 0x1000).2 = none ∧
      ¬ Truthful noPages bootState 0x1000 := by
  have hgives : GivesPages noPages bootState.root := fun _ _ hgiven => absurd rfl hgiven
  have h := bootState_tables.inStep rfl
  have hquery : (vmm_query_page noPages bootState 0x1000).2 = none :=
    query_of_no_page hgives.supplies h.sound bootState_inLarge rfl
  refine ⟨bootState_mapped, hquery, fun htruth => ?_⟩
  have hanswer := htruth.query
  rw [hquery] at hanswer
  have hsome : (bootState.mapped 1).isSome = true := by
    rw [bootState_mapped]
    rfl
  exact absurd (Option.map_eq_none_iff.mp hanswer.symm) (Option.isSome_iff_ne_none.mp hsome)

end mvh.vmm
