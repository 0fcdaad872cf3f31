-- The page tables at boot: the first gigabytes mapped to themselves with pages of 2 MiB.
import MvhKernel.VmmCalls

open flat_memory table_tree masks runs

namespace mvh.vmm

variable {A : Type}

/-! ## The tables at boot -/

def largeEntry (address : Nat) : UInt64 := UInt64.ofNat address ||| 0x83

/-- The first `gib` GiB are mapped to themselves: one entry in the top table, `gib` entries in the
next one, and a table full of large pages for each of them. -/
structure BootTables (gib : Nat) (s : Vmm A) (pdpt : UInt64) (pd : Fin 512 → UInt64) : Prop where
  few : gib ≤ 4
  pdpt_page : In pdpt PAGE_MASK
  pd_page : ∀ k : Fin 512, k.val < gib → In (pd k) PAGE_MASK
  pml4_entries : ∀ i, tables s.mem s.root i =
    if i = 0 then pdpt ||| VMM_PRESENT ||| VMM_WRITABLE else 0
  pdpt_entries : ∀ i : Fin 512, tables s.mem (pdpt.toNat / 4096) i =
    if i.val < gib then pd i ||| VMM_PRESENT ||| VMM_WRITABLE else 0
  pd_entries : ∀ k : Fin 512, k.val < gib → ∀ i : Fin 512,
    tables s.mem ((pd k).toNat / 4096) i = largeEntry (k * 2 ^ 30 + i * 2 ^ 21)
  pdpt_apart : pdpt.toNat / 4096 ≠ s.root
  pd_apart : ∀ k : Fin 512, k.val < gib →
    (pd k).toNat / 4096 ≠ s.root ∧ (pd k).toNat / 4096 ≠ pdpt.toNat / 4096
  pd_differ : ∀ k l : Fin 512, k.val < gib → l.val < gib →
    (pd k).toNat / 4096 = (pd l).toNat / 4096 → k = l

theorem largeEntry_present (a : Nat) : largeEntry a &&& VMM_PRESENT ≠ 0 := by
  rw [largeEntry, or_and_of_in _ (by decide)]
  decide

theorem largeEntry_huge (a : Nat) : largeEntry a &&& PAGE_HUGE ≠ 0 := by
  rw [largeEntry, or_and_of_in _ (by decide)]
  decide

theorem large_largeEntry {address : Nat} (hal : address % 2 ^ 21 = 0) (hlt : address < 2 ^ 52)
    (i : Fin 512) : large (largeEntry address) i =
      some ⟨UInt64.ofNat (address + i * 4096), VMM_PRESENT ||| VMM_WRITABLE⟩ := by
  have hn : (UInt64.ofNat address).toNat = address := by grind
  have hb : In (UInt64.ofNat address) 0x000FFFFFFFE00000 := by
    unfold In
    rw [← UInt64.toNat_inj, UInt64.toNat_and, hn]
    refine (nat_and_mask address (show 21 ≤ 52 by decide)).trans ?_
    omega
  have ha : largeEntry address &&& 0x000FFFFFFFE00000 = UInt64.ofNat address :=
    or_and_left hb (by decide)
  have hf : largeEntry address &&& VMM_FLAGS = VMM_PRESENT ||| VMM_WRITABLE :=
    (or_and_right (hb.apart (by decide))).trans (by decide)
  rw [large_of_large (largeEntry_present address) (largeEntry_huge address), ha, hf,
    UInt64.ofNat_add, UInt64.ofNat_mul]
  rfl

section
variable {gib : Nat} {s : Vmm A} {pdpt : UInt64} {pd : Fin 512 → UInt64}
variable (h : BootTables gib s pdpt pd)
include h

theorem BootTables.pdpt_table : s.tableAt [0] = some (pdpt.toNat / 4096) := by
  have hr : s.tableAt [] = some s.root := rfl
  refine (tableAt_cons hr 0).trans ?_
  rw [h.pml4_entries, if_pos rfl]
  exact child_link (by decide) h.pdpt_page (by decide)

theorem BootTables.pd_table {k : Fin 512} (hk : k.val < gib) :
    s.tableAt [k, 0] = some ((pd k).toNat / 4096) := by
  refine (tableAt_cons h.pdpt_table k).trans ?_
  rw [h.pdpt_entries, if_pos hk]
  exact child_link (by decide) (h.pd_page k hk) (by decide)

theorem BootTables.of_tableAt {path : List (Fin 512)} {f : Nat} (hf : s.tableAt path = some f) :
    (path = [] ∧ f = s.root) ∨ (path = [0] ∧ f = pdpt.toNat / 4096) ∨
      ∃ k : Fin 512, k.val < gib ∧ path = [k, 0] ∧ f = (pd k).toNat / 4096 := by
  induction path generalizing f with
  | nil => exact Or.inl ⟨rfl, (Option.some.inj hf).symm⟩
  | cons i path ih =>
    obtain ⟨g, hg, hc⟩ := tableAt_above hf
    rcases ih hg with ⟨rfl, rfl⟩ | ⟨rfl, rfl⟩ | ⟨k, hk, rfl, rfl⟩
    · rw [h.pml4_entries] at hc
      split at hc
      · rename_i hi
        rw [child_link (by decide) h.pdpt_page (by decide)] at hc
        grind
      · rw [child_of_absent rfl] at hc
        cases hc
    · rw [h.pdpt_entries] at hc
      split at hc
      · rename_i hi
        rw [child_link (by exact Nat.lt_add_one_of_lt (by decide)) (h.pd_page i hi) (by decide)] at hc
        grind
      · rw [child_of_absent rfl] at hc
        cases hc
    · rw [h.pd_entries k hk] at hc
      have hn : child 2 (largeEntry (k * 2 ^ 30 + i * 2 ^ 21)) = none :=
        child_of_large (largeEntry_huge _)
      grind

theorem BootTables.unshared : Unshared child s.root (tables s.mem) := by
  intro path o f hp ho
  rcases h.of_tableAt hp with ⟨rfl, rfl⟩ | ⟨rfl, rfl⟩ | ⟨k, hk, rfl, rfl⟩ <;>
    rcases h.of_tableAt ho with ⟨rfl, hf⟩ | ⟨rfl, hf⟩ | ⟨l, hl, rfl, hf⟩
  · rfl
  · exact absurd hf.symm h.pdpt_apart
  · exact absurd hf.symm (h.pd_apart l hl).1
  · exact absurd hf h.pdpt_apart
  · rfl
  · exact absurd hf.symm (h.pd_apart l hl).2
  · exact absurd hf (h.pd_apart k hk).1
  · exact absurd hf (h.pd_apart k hk).2
  · rw [h.pd_differ k l hk hl hf]

theorem BootTables.no_last_table (p : Nat) : s.tableAt (pathOf p).tail = none := by
  rw [Option.eq_none_iff_forall_ne_some]
  intro f hf
  rcases h.of_tableAt hf with ⟨heq, -⟩ | ⟨heq, -⟩ | ⟨k, -, heq, -⟩ <;>
    exact absurd (congrArg List.length heq) (by simp [pathOf])

theorem BootTables.space (p : Page) : s.space p =
    if p.val < gib * 2 ^ 18 then
      some ⟨UInt64.ofNat (p * 4096), VMM_PRESENT ||| VMM_WRITABLE⟩
    else none := by
  have hp := p.isLt
  have hfw := h.few
  have hi (l : Nat) : (index p l).val = p.val / 512 ^ l % 512 := rfl
  have h0 := hi 0
  have h1 := hi 1
  have h2 := hi 2
  have h3 := hi 3
  norm_num at h0 h1 h2 h3
  have he : entryAt child s.root (tables s.mem) (pathOf p) = none :=
    entryAt_below (h.no_last_table p)
  show translate s.root (tables s.mem) p = _
  rw [translate, he]
  simp only
  split
  · rename_i hl
    have ht : index p 3 = 0 := by omega
    have hk : (index p 2).val < gib := by omega
    have hpd : s.tableAt [index p 2, index p 3] = some ((pd (index p 2)).toNat / 4096) := by
      rw [ht]
      exact h.pd_table hk
    have hr := entryAt_cons hpd (index p 1)
    rw [h.pd_entries _ hk] at hr
    have hs : (index p 2).val * 2 ^ 30 + (index p 1).val * 2 ^ 21 +
        (index p 0).val * 4096 = p.val * 4096 := by omega
    rw [show (pathOf p).tail = [index p 1, index p 2, index p 3] from rfl, hr,
      Option.bind_some, large_largeEntry (by omega) (by omega), hs]
  · rename_i hh
    have hn : s.tableAt [index p 2, index p 3] = none := by
      rw [Option.eq_none_iff_forall_ne_some]
      intro f hf
      rcases h.of_tableAt hf with ⟨heq, -⟩ | ⟨heq, -⟩ | ⟨k, hk, heq, -⟩
      · cases heq
      · grind
      · grind
    have hr : entryAt child s.root (tables s.mem) (pathOf p).tail = none := entryAt_below hn
    rw [hr]
    rfl

theorem BootTables.mappedPages : s.mappedPages = gib * 2 ^ 18 := by
  have hf := h.few
  have hm (p : Page) : (s.space p).isSome = true ↔ p.val < gib * 2 ^ 18 := by
    simp [h.space]
  unfold Vmm.mappedPages tally.count
  simp only [hm]
  rw [Fin.card_filter_val_lt]
  omega

end

/-! ## The tables of `boot32.S` -/

def storeLow (m : Mem) (a : Nat) (low : UInt32) : Mem := store32 (store32 m a low) (a + 4) 0

/-- The loop over the large pages, from a number on with the pages left. -/
def pd_loop (bootstrap_pd : UInt32) : Nat → Nat → Mem → Mem
  | _, 0, m => m
  | ecx, left + 1, m => pd_loop bootstrap_pd (ecx + 1) left
    (storeLow m (bootstrap_pd.toNat + 8 * ecx) ((UInt32.ofNat ecx <<< 21) ||| 0x83))

def pdpt_loop (bootstrap_pdpt bootstrap_pd : UInt32) : Nat → Nat → Mem → Mem
  | _, 0, m => m
  | ecx, left + 1, m => pdpt_loop bootstrap_pdpt bootstrap_pd (ecx + 1) left
    (storeLow m (bootstrap_pdpt.toNat + 8 * ecx)
      (((UInt32.ofNat ecx <<< 12) + bootstrap_pd) ||| 3))

/-- The memory after `bootstrap_paging`. -/
def bootstrap_paging (m : Mem) (bootstrap_pml4 : UInt32) : Mem :=
  let bootstrap_pdpt := bootstrap_pml4 + 4096
  let bootstrap_pd := bootstrap_pdpt + 4096
  let m := pd_loop bootstrap_pd 0 2048 m
  let m := pdpt_loop bootstrap_pdpt bootstrap_pd 0 4 m
  storeLow m bootstrap_pml4.toNat (bootstrap_pdpt ||| 3)

theorem storeLow_eq (m : Mem) (a : Nat) (low : UInt32) :
    storeLow m a low = store64 m a low.toUInt64 := by
  have hl : low.toUInt64.toUInt32 = low := by simp
  have hh : (low.toUInt64 >>> 32).toUInt32 = 0 := by
    grind [UInt64.toNat_toUInt32, UInt64.toNat_shiftRight, UInt32.toNat_toUInt64, Nat.shiftRight_eq_div_pow, UInt32.toNat_inj.mp]
  unfold storeLow store64
  rw [hl, hh]

theorem pd_entry {ecx : Nat} (h : ecx < 2048) :
    ((UInt32.ofNat ecx <<< 21) ||| 0x83).toUInt64 = largeEntry (ecx * 2 ^ 21) := by
  have hn : (UInt32.ofNat ecx).toNat = ecx := by grind
  have hs : (UInt32.ofNat ecx <<< 21).toUInt64 = UInt64.ofNat (ecx * 2 ^ 21) := by
    apply UInt64.toNat_inj.mp
    have hb : (UInt64.ofNat (ecx * 2 ^ 21)).toNat = ecx * 2 ^ 21 := by grind
    rw [UInt32.toNat_toUInt64, UInt32.toNat_shiftLeft, hn, hb, Nat.shiftLeft_eq]
    grind
  rw [UInt32.toUInt64_or, hs]
  rfl

theorem tables_pd_loop {b : UInt32} {f : Nat} (hf : b.toNat = 4096 * f)
    {ecx left : Nat} (h : ecx + left = 2048) (m : Mem) :
    tables (pd_loop b ecx left m) = fun g (j : Fin 512) =>
      if f ≤ g ∧ g < f + 4 ∧ ecx ≤ (g - f) * 512 + j.val then
        largeEntry (((g - f) * 512 + j.val) * 2 ^ 21)
      else tables m g j := by
  induction left generalizing ecx m with
  | zero =>
    funext g j
    have hj := j.isLt
    rw [if_neg (by omega)]
    rfl
  | succ left ih =>
    have ha : b.toNat + 8 * ecx = 4096 * (f + ecx / 512) + 8 * (ecx % 512) := by
      omega
    have hs := tables_store m (f + ecx / 512) ⟨ecx % 512, Nat.mod_lt _ (by decide)⟩
      (largeEntry (ecx * 2 ^ 21))
    rw [pd_loop, storeLow_eq, pd_entry (by omega), ha, ih (by omega), hs]
    funext g j
    have hj := j.isLt
    by_cases hat : g = f + ecx / 512 ∧ j = ⟨ecx % 512, Nat.mod_lt _ (by decide)⟩
    · obtain ⟨rfl, rfl⟩ := hat
      have hp : (f + ecx / 512 - f) * 512 + ecx % 512 = ecx := by omega
      grind [Tables.set_same]
    grind [Tables.set_ne, Fin.val_inj]

theorem low_entry (a : UInt32) :
    (a ||| 3).toUInt64 = a.toUInt64 ||| VMM_PRESENT ||| VMM_WRITABLE := by
  have ht : (3 : UInt32).toUInt64 = VMM_PRESENT ||| VMM_WRITABLE := by decide
  rw [UInt32.toUInt64_or, ht, UInt64.or_assoc]

def pdAt (bootstrap_pd : UInt32) (k : Nat) : UInt32 := (UInt32.ofNat k <<< 12) + bootstrap_pd

theorem toNat_pdAt {b : UInt32} (hr : b.toNat + 4 * 4096 ≤ 2 ^ 32) {k : Nat}
    (hk : k < 4) : (pdAt b k).toNat = b.toNat + 4096 * k := by
  have hn : (UInt32.ofNat k).toNat = k := by grind
  grind [UInt32.toNat_shiftLeft, Nat.shiftLeft_eq, pdAt, UInt32.toNat_add, Nat.mod_eq_of_lt]

theorem tables_pdpt_loop {bt b : UInt32} {f : Nat}
    (hf : bt.toNat = 4096 * f) {ecx left : Nat} (h : ecx + left = 4) (m : Mem) :
    tables (pdpt_loop bt b ecx left m) = fun g (j : Fin 512) =>
      if g = f ∧ ecx ≤ j.val ∧ j.val < 4 then
        (pdAt b j).toUInt64 ||| VMM_PRESENT ||| VMM_WRITABLE
      else tables m g j := by
  induction left generalizing ecx m with
  | zero =>
    funext g j
    rw [if_neg (by omega)]
    rfl
  | succ left ih =>
    have hlt : ecx < 512 := by omega
    have hs := tables_store m f ⟨ecx, hlt⟩
      ((pdAt b ecx).toUInt64 ||| VMM_PRESENT ||| VMM_WRITABLE)
    rw [pdpt_loop, storeLow_eq, low_entry, hf, ih (by omega)]
    funext g j
    show (if _ then _ else tables (store64 m _ ((pdAt b ecx).toUInt64 ||| _ ||| _)) g j) = _
    rw [hs]
    by_cases hat : g = f ∧ j = ⟨ecx, hlt⟩
    · obtain ⟨rfl, rfl⟩ := hat
      have hin : ecx < 4 := by omega
      grind [Tables.set_same]
    grind [Tables.set_ne, Fin.val_inj]

theorem in_mask_of_page {a : UInt32} {f : Nat} (h : a.toNat = 4096 * f) :
    In a.toUInt64 PAGE_MASK := by
  have hlt := a.toNat_lt
  rw [in_page_mask_iff, UInt32.toNat_toUInt64]
  omega

theorem bootstrap_tables {m : Mem} {b4 : UInt32} {f : Nat}
    (hf : b4.toNat = 4096 * f) (hrm : b4.toNat + 6 * 4096 ≤ 2 ^ 32)
    (hc : ∀ i, tables m f i = 0 ∧ tables m (f + 1) i = 0) {s : Vmm A}
    (hm : s.mem = bootstrap_paging m b4) (hc3 : s.cr3 = b4.toUInt64) :
    BootTables 4 s (b4 + 4096).toUInt64
      fun k => (pdAt (b4 + 4096 + 4096) k).toUInt64 := by
  have hs : (4096 : UInt32).toNat = 4096 := rfl
  have hpp : (b4 + 4096).toNat = 4096 * (f + 1) := by
    rw [UInt32.toNat_add]
    omega
  have hpd : (b4 + 4096 + 4096).toNat = 4096 * (f + 2) := by
    rw [UInt32.toNat_add]
    omega
  have hp {k : Nat} (hk : k < 4) :
      (pdAt (b4 + 4096 + 4096) k).toUInt64.toNat / 4096 = f + 2 + k := by
    grind [UInt32.toNat_toUInt64, toNat_pdAt]
  have hr : s.root = f := by
    unfold Vmm.root active_pml4
    rw [hc3, in_mask_of_page hf, UInt32.toNat_toUInt64]
    omega
  have ht : tables s.mem = fun g (j : Fin 512) =>
      if g = f ∧ j = 0 then (b4 + 4096).toUInt64 ||| VMM_PRESENT ||| VMM_WRITABLE
      else if g = f + 1 ∧ j.val < 4 then
        (pdAt (b4 + 4096 + 4096) j).toUInt64 ||| VMM_PRESENT ||| VMM_WRITABLE
      else if f + 2 ≤ g ∧ g < f + 6 then largeEntry (((g - (f + 2)) * 512 + j.val) * 2 ^ 21)
      else tables m g j := by
    have hp4 := tables_store (pdpt_loop (b4 + 4096) (b4 + 4096 + 4096) 0 4
      (pd_loop (b4 + 4096 + 4096) 0 2048 m)) f 0
      ((b4 + 4096).toUInt64 ||| VMM_PRESENT ||| VMM_WRITABLE)
    rw [hm, bootstrap_paging, storeLow_eq, low_entry, hf]
    refine hp4.trans ?_
    rw [tables_pdpt_loop hpp rfl, tables_pd_loop hpd rfl]
    funext g j
    simp only [Tables.set, Nat.zero_le, true_and, and_true, Nat.add_assoc, Nat.reduceAdd]
  have hd : (b4 + 4096).toUInt64.toNat / 4096 = f + 1 := by
    rw [UInt32.toNat_toUInt64]
    omega
  constructor
  · exact le_refl 4
  · exact in_mask_of_page hpp
  · intro k hk
    have hpg : (pdAt (b4 + 4096 + 4096) k).toNat =
        (b4 + 4096 + 4096).toNat + 4096 * k := toNat_pdAt (by omega) hk
    exact in_mask_of_page (f := f + 2 + k) (by omega)
  · intro i
    rw [hr, ht]
    by_cases hi : i = 0
    · rw [if_pos hi]
      exact if_pos ⟨rfl, hi⟩
    · rw [if_neg hi]
      refine (if_neg fun hat => hi hat.2).trans ((if_neg (by omega)).trans ((if_neg (by omega)).trans ?_))
      exact (hc i).1
  · intro i
    rw [hd, ht]
    refine (if_neg (by omega)).trans ?_
    by_cases hi : i.val < 4
    · rw [if_pos hi]
      exact if_pos ⟨rfl, hi⟩
    · rw [if_neg hi]
      refine (if_neg fun hat => hi hat.2).trans ((if_neg (by omega)).trans ?_)
      exact (hc i).2
  · intro k hk i
    rw [hp hk, ht]
    refine (if_neg (by omega)).trans ((if_neg (by omega)).trans ((if_pos (by omega)).trans ?_))
    exact congrArg largeEntry (by omega)
  · rw [hd, hr]
    omega
  · intro k hk
    rw [hp hk, hr, hd]
    omega
  · intro k l hk hl heq
    rw [hp hk, hp hl] at heq
    exact Fin.ext (by omega)

end mvh.vmm
