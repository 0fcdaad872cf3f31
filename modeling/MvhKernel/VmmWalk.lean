-- The walk over the page tables.
import MvhKernel.VmmTables

open flat_memory table_tree masks

namespace mvh.vmm

variable {A : Type}

/-! ## What a walk keeps -/

def Vmm.root (s : Vmm A) : Nat := (active_pml4 s).toNat / 4096

def Vmm.tableAt (s : Vmm A) (path : List (Fin 512)) : Option Nat :=
  table_tree.tableAt child s.root (tables s.mem) path

def Vmm.UsesTable (s : Vmm A) (f : Nat) : Prop := Uses child s.root (tables s.mem) f

def Vmm.mapping (s : Vmm A) (page : Nat) : Option Mapping := translate s.root (tables s.mem) page

def Shrinks (fits : (Nat → Prop) → A → Prop) : Prop :=
  ∀ used fewer a, fits used a → (∀ f, fewer f → used f) → fits fewer a

/-- What the walk needs from the page allocator. -/
structure Supplies (pmm_alloc_pages : Mem → A → UInt64 × A) (root : Nat)
    (fits : (Nat → Prop) → A → Prop) : Prop where
  shrinks : Shrinks fits
  refused : ∀ m a, fits (Uses child root (tables m)) a → (pmm_alloc_pages m a).1 = 0 →
    fits (Uses child root (tables m)) (pmm_alloc_pages m a).2
  aligned : ∀ m a, fits (Uses child root (tables m)) a → In (pmm_alloc_pages m a).1 PAGE_MASK
  fresh : ∀ m a, fits (Uses child root (tables m)) a → (pmm_alloc_pages m a).1 ≠ 0 →
    ¬ Uses child root (tables m) ((pmm_alloc_pages m a).1.toNat / 4096)
  given : ∀ m a, fits (Uses child root (tables m)) a → (pmm_alloc_pages m a).1 ≠ 0 →
    fits (fun f => Uses child root (tables m) f ∨ f = (pmm_alloc_pages m a).1.toNat / 4096)
      (pmm_alloc_pages m a).2

/-- The tables form a tree, and the allocator fits to it. -/
structure Sound (fits : (Nat → Prop) → A → Prop) (s : Vmm A) : Prop where
  unshared : Unshared child s.root (tables s.mem)
  fit : fits s.UsesTable s.pmm

/-- A step that no translation shows. -/
structure Keeps (fits : (Nat → Prop) → A → Prop) (s s' : Vmm A) : Prop where
  cr3 : s'.cr3 = s.cr3
  count : s'.mapped_page_count = s.mapped_page_count
  mapping : ∀ page, s'.mapping page = s.mapping page
  grows : ∀ {path f}, s.tableAt path = some f → s'.tableAt path = some f
  sound : Sound fits s'

section
variable {fits : (Nat → Prop) → A → Prop} {s s' s'' : Vmm A}

theorem Keeps.refl (h : Sound fits s) : Keeps fits s s := ⟨rfl, rfl, fun _ => rfl, id, h⟩

theorem Keeps.trans (h1 : Keeps fits s s') (h2 : Keeps fits s' s'') : Keeps fits s s'' where
  cr3 := h2.cr3.trans h1.cr3
  count := h2.count.trans h1.count
  mapping page := (h2.mapping page).trans (h1.mapping page)
  grows hpath := h2.grows (h1.grows hpath)
  sound := h2.sound

theorem Keeps.root (h : Keeps fits s s') : s'.root = s.root := by
  unfold Vmm.root active_pml4
  rw [h.cr3]

end

/-! ## New tables -/

section
variable {pmm_alloc_pages : Mem → A → UInt64 × A} {fits : (Nat → Prop) → A → Prop} {s : Vmm A}
variable (hsup : Supplies pmm_alloc_pages s.root fits) (h : Sound fits s)
include hsup h

theorem new_table_spec :
    (new_table pmm_alloc_pages s = (none, { s with pmm := (pmm_alloc_pages s.mem s.pmm).2 }) ∧
      (pmm_alloc_pages s.mem s.pmm).1 = 0 ∧
      Keeps fits s { s with pmm := (pmm_alloc_pages s.mem s.pmm).2 }) ∨
    ∃ t pmm, let m := writeEntries t (fun _ => 0) 0 512 s.mem
      new_table pmm_alloc_pages s = (some t, { s with mem := m, pmm }) ∧
      (pmm_alloc_pages s.mem s.pmm).1 ≠ 0 ∧
      In t PAGE_MASK ∧ ¬ s.UsesTable (t.toNat / 4096) ∧
      fits (fun f => s.UsesTable f ∨ f = t.toNat / 4096) pmm := by
  unfold new_table
  by_cases hn : (pmm_alloc_pages s.mem s.pmm).1 = 0
  · exact Or.inl ⟨if_pos hn, hn, rfl, rfl, fun _ => rfl, id, h.unshared,
      hsup.refused _ _ h.fit hn⟩
  · exact Or.inr ⟨_, _, if_neg hn, hn, hsup.aligned _ _ h.fit, hsup.fresh _ _ h.fit hn,
      hsup.given _ _ h.fit hn⟩

/-- The walk from an entry: nothing shows, and the table that it gives is the next one on the
path. -/
def Leads (fits : (Nat → Prop) → A → Prop) (s : Vmm A) (path : List (Fin 512))
    (r : Option UInt64 × Vmm A) : Prop :=
  Keeps fits s r.2 ∧ ∀ table, r.1 = some table →
    In table PAGE_MASK ∧ r.2.tableAt path = some (table.toNat / 4096)

theorem link_spec (v : Nat → UInt64) {t fl : UInt64} {pmm : A} {m : Mem} {f : Nat}
    {i : Fin 512} {path : List (Fin 512)} (hl : path.length ≤ 2)
    (hf : s.tableAt path = some f) (ht : In t PAGE_MASK) (hfl : In fl VMM_FLAGS)
    (hfr : ¬ s.UsesTable (t.toNat / 4096))
    (hft : fits (fun f => s.UsesTable f ∨ f = t.toNat / 4096) pmm)
    (hm : tables m = fun g (j : Fin 512) =>
      if g = t.toNat / 4096 then v j else tables s.mem g j)
    (hold : child path.length (tables s.mem f i) = none)
    (hls : ∀ j : Fin 512, child (path.length + 1) (v j) = none)
    (htr : Unshared child s.root (tables m) →
      table_tree.tableAt child s.root (tables m) path = some f →
      ¬ Uses child s.root (tables m) (t.toNat / 4096) → tables m f i = tables s.mem f i →
      ∀ p, translate s.root ((tables m).set f i (t ||| VMM_PRESENT ||| fl)) p =
        translate s.root (tables m) p) :
    Leads fits s (i :: path) (some t,
      { s with mem := store64 m (4096 * f + 8 * i) (t ||| VMM_PRESENT ||| fl), pmm }) := by
  have ha : ∀ g, Uses child s.root (tables s.mem) g → ∀ j, tables m g j = tables s.mem g j := by
    intro g hg j
    have hne : g ≠ t.toNat / 4096 := fun heq => hfr (heq ▸ hg)
    rw [hm]
    exact if_neg hne
  have ho := h.unshared.congr ha
  have hf' : table_tree.tableAt child s.root (tables m) path = some f := by
    rw [tableAt_congr ha]
    exact hf
  have hf1 : ¬ Uses child s.root (tables m) (t.toNat / 4096) :=
    fun hu => hfr ((uses_congr ha _).mp hu)
  have he : tables m f i = tables s.mem f i := ha f ⟨path, hf⟩ i
  have hn : child path.length (t ||| VMM_PRESENT ||| fl) = some (t.toNat / 4096) :=
    child_link (by omega) ht hfl
  have hl' : ∀ j, child (path.length + 1) (tables m (t.toNat / 4096) j) = none := by grind
  rw [← he] at hold
  refine ⟨⟨rfl, rfl, fun p => ?_, fun {o g} hg => ?_, ?_, ?_⟩, fun gv hgv => ?_⟩
  · show translate s.root (tables (store64 m _ _)) p = translate s.root (tables s.mem) p
    grind [tables_store, translate_congr]
  · show table_tree.tableAt child s.root (tables (store64 m _ _)) o = some g
    have hg' : table_tree.tableAt child s.root (tables m) o = some g := by
      rw [tableAt_congr ha]
      exact hg
    rw [tables_store, tableAt_link ho hf' hold hn hf1 hl', hg', if_neg]
    rintro rfl
    rw [tableAt_cons hf', hold] at hg'
    cases hg'
  · show Unshared child s.root (tables (store64 m _ _))
    rw [tables_store]
    exact ho.link hf' hold hn hf1 hl'
  · refine hsup.shrinks _ _ _ hft fun g hg => ?_
    have hg : Uses child s.root (tables (store64 m _ _)) g := hg
    rw [tables_store] at hg
    exact (uses_link ho hf' hold hn hf1 hl' hg).imp_left (uses_congr ha g).mp
  · cases hgv
    refine ⟨ht, ?_⟩
    show table_tree.tableAt child s.root (tables (store64 m _ _)) (i :: path) = _
    grind [tables_store, tableAt_link]

variable {f : Nat} {i : Fin 512} {path : List (Fin 512)} (hf : s.tableAt path = some f)
include hf

theorem addTable_spec (hl : path.length ≤ 2) (create : Bool)
    (hold : tables s.mem f i &&& VMM_PRESENT = 0) :
    Leads fits s (i :: path) (addTable pmm_alloc_pages s (4096 * f + 8 * i) create) := by
  unfold addTable
  split
  · exact ⟨Keeps.refl h, nofun⟩
  rcases new_table_spec hsup h with ⟨hn, -, hk⟩ | ⟨t, pmm, hn, -, ht, hfr, hft⟩
  · rw [hn]
    exact ⟨hk, nofun⟩
  · rw [hn]
    have hw : t.toNat = 4096 * (t.toNat / 4096) := by
      have := ((in_page_mask_iff t).mp ht).1
      omega
    have hm := tables_write_all hw (fun _ => 0) s.mem
    generalize writeEntries t (fun _ => 0) 0 512 s.mem = m at hm ⊢
    refine link_spec hsup h (fun _ => 0) hl hf ht (by decide) hfr hft hm (child_of_absent hold)
      (fun _ => child_of_absent rfl) fun ho hf' hf1 he => ?_
    refine translate_link_empty ho hf' (child_link (by omega) ht (by decide)) hf1
      (he ▸ hold) (fun j => ?_) hl
    rw [hm]
    exact if_pos rfl

omit hf in
theorem split_huge_page_cases (i : Fin 512) :
    (split_huge_page pmm_alloc_pages s (4096 * f + 8 * i) =
        (none, { s with pmm := (pmm_alloc_pages s.mem s.pmm).2 }) ∧
      (pmm_alloc_pages s.mem s.pmm).1 = 0 ∧
      Keeps fits s { s with pmm := (pmm_alloc_pages s.mem s.pmm).2 }) ∨
    ∃ t pmm m, split_huge_page pmm_alloc_pages s (4096 * f + 8 * i) = (some t,
        { s with mem := store64 m (4096 * f + 8 * i) (t ||| VMM_PRESENT ||| VMM_WRITABLE), pmm }) ∧
      (pmm_alloc_pages s.mem s.pmm).1 ≠ 0 ∧ In t PAGE_MASK ∧
      ¬ s.UsesTable (t.toNat / 4096) ∧
      fits (fun f => s.UsesTable f ∨ f = t.toNat / 4096) pmm ∧
      tables m = fun g (j : Fin 512) =>
        if g = t.toNat / 4096 then splitEntry (tables s.mem f i) j else tables s.mem g j := by
  unfold split_huge_page
  rcases new_table_spec hsup h with
    ⟨hn, hnl, hk⟩ | ⟨t, pmm, hn, hg, ht, hfr, hft⟩
  · grind
  · rw [hn]
    have hw : t.toNat = 4096 * (t.toNat / 4096) := by
      have := ((in_page_mask_iff t).mp ht).1
      omega
    have he : load64 s.mem (4096 * f + 8 * i) = tables s.mem f i := rfl
    simp only
    rw [he, ht]
    grind [tables_write_all]

theorem split_huge_page_spec (hl : path.length = 2)
    (hp : tables s.mem f i &&& VMM_PRESENT ≠ 0) (hh : tables s.mem f i &&& PAGE_HUGE ≠ 0) :
    Leads fits s (i :: path) (split_huge_page pmm_alloc_pages s (4096 * f + 8 * i)) := by
  rcases split_huge_page_cases hsup h (f := f) i with
    ⟨hs, -, hk⟩ | ⟨table, pmm, m, hs, -, ht, hfr, hft, hm⟩
  · rw [hs]
    exact ⟨hk, nofun⟩
  · rw [hs]
    refine link_spec hsup h (splitEntry (tables s.mem f i)) hl.le hf ht (by decide) hfr
      hft hm (hl ▸ child_of_large hh) (fun j => hl ▸ child_of_last _)
      fun ho hf' hf1 he => ?_
    refine translate_link_split ho hf' (child_link (by omega) ht (by decide)) hf1
      (he ▸ hp) (he ▸ hh) (fun j => ?_) hl
    rw [he, hm]
    exact if_pos rfl

/-! ## The walk -/

theorem enter_spec (hl : path.length < 2) (create : Bool) :
    Leads fits s (i :: path) (enter pmm_alloc_pages s (4096 * f + 8 * i) create) := by
  have he : load64 s.mem (4096 * f + 8 * i) = tables s.mem f i := rfl
  unfold enter
  rw [he]
  split
  · rename_i hab
    have ha := addTable_spec hsup h hf hl.le create hab
    generalize addTable pmm_alloc_pages s (4096 * f + 8 * i) create = r at ha
    rcases r with ⟨_ | t, s'⟩
    · exact ⟨ha.1, nofun⟩
    · -- The entry is read a, and leads to the t that was just linked.
      refine ⟨ha.1, fun a hag => ?_⟩
      cases hag
      have hn := (ha.2 t rfl).2
      have hc := (tableAt_cons (ha.1.grows hf) i).symm.trans hn
      rw [(of_child hc).2.2] at hn
      exact ⟨in_and _ _, hn⟩
  · rename_i hp
    refine ⟨Keeps.refl h, fun t ht => ?_⟩
    cases ht
    exact ⟨in_and _ _,
      (tableAt_cons hf i).trans (child_of_table (by omega) hp (by omega))⟩

theorem enterLast_spec (hlv : path.length = 2) (create : Bool) :
    Leads fits s (i :: path) (enterLast pmm_alloc_pages s (4096 * f + 8 * i) create) := by
  have he : load64 s.mem (4096 * f + 8 * i) = tables s.mem f i := rfl
  unfold enterLast
  rw [he]
  split
  · grind [split_huge_page_spec]
  split
  · grind [addTable_spec]
  · rename_i hl hp
    have hs : tables s.mem f i &&& PAGE_HUGE = 0 := by grind
    refine ⟨Keeps.refl h, fun t ht => ?_⟩
    cases ht
    exact ⟨in_and _ _,
      (tableAt_cons hf i).trans (child_of_table (by omega) hp fun _ => hs)⟩

end

theorem toNat_level_bits (a : UInt64) (level : Nat) {shift : UInt64}
    (hs : shift.toNat = 12 + 9 * level) (hl : level ≤ 3) :
    ((a >>> shift) &&& 0x1FF).toNat = a.toNat / 2 ^ (12 + 9 * level) % 512 := by
  have hm : ((a >>> shift) &&& 0x1FF).toNat = (a >>> shift).toNat % 512 := by
    rw [UInt64.toNat_and]
    exact Nat.and_two_pow_sub_one_eq_mod _ 9
  have hc : shift.toNat % 64 = 12 + 9 * level := by omega
  rw [hm, UInt64.toNat_shiftRight, hc, Nat.shiftRight_eq_div_pow]

theorem slot_eq {t : UInt64} (ht : In t PAGE_MASK) (a : UInt64) (l : Nat)
    {shift : UInt64} (hs : shift.toNat = 12 + 9 * l) (hl : l ≤ 3) :
    slot t (a >>> shift) =
      4096 * (t.toNat / 4096) + 8 * (index (a.toNat / 4096) l).val := by
  have hw := ((in_page_mask_iff t).mp ht).1
  have hb : ((a >>> shift) &&& 0x1FF).toNat =
      a.toNat / 4096 / 512 ^ l % 512 := by
    rw [toNat_level_bits a l hs hl, Nat.div_div_eq_div_mul, Nat.pow_add,
      Nat.pow_mul]
  have hi : (index (a.toNat / 4096) l).val =
      a.toNat / 4096 / 512 ^ l % 512 := rfl
  unfold slot
  rw [hb, hi]
  omega

section
variable {pmm_alloc_pages : Mem → A → UInt64 × A} {fits : (Nat → Prop) → A → Prop} {s : Vmm A}

theorem walk_spec (hsup : Supplies pmm_alloc_pages s.root fits) (h : Sound fits s)
    (a : UInt64) (create : Bool) :
    Keeps fits s (walk pmm_alloc_pages s a create).2 ∧
    ∀ e, (walk pmm_alloc_pages s a create).1 = some e →
      ∃ f, (walk pmm_alloc_pages s a create).2.tableAt
          (pathOf (a.toNat / 4096)).tail = some f ∧
        e = 4096 * f + 8 * (index (a.toNat / 4096) 0).val := by
  have hp4 : In (active_pml4 s) PAGE_MASK := in_and _ _
  have hr : s.tableAt [] = some ((active_pml4 s).toNat / 4096) := rfl
  unfold walk
  rw [slot_eq hp4 a 3 rfl (by decide)]
  have h3 := enter_spec hsup h hr (i := index (a.toNat / 4096) 3) (by decide) create
  generalize enter pmm_alloc_pages s _ create = r at h3
  rcases r with ⟨_ | p, s1⟩
  · exact ⟨h3.1, nofun⟩
  obtain ⟨hk1, hl1⟩ := h3
  obtain ⟨hp, hp1⟩ := hl1 p rfl
  simp only at hk1 hp1 ⊢
  rw [slot_eq hp a 2 rfl (by decide)]
  have h2 := enter_spec (hk1.root ▸ hsup) hk1.sound hp1
    (i := index (a.toNat / 4096) 2) (show 1 < 2 by decide) create
  generalize enter pmm_alloc_pages s1 _ create = r at h2
  rcases r with ⟨_ | pd, s2⟩
  · exact ⟨hk1.trans h2.1, nofun⟩
  obtain ⟨hk2, hl2⟩ := h2
  obtain ⟨hpd, hp2⟩ := hl2 pd rfl
  have hk2 := hk1.trans hk2
  simp only at hk2 hp2 ⊢
  rw [slot_eq hpd a 1 rfl (by decide)]
  have h1 := enterLast_spec (hk2.root ▸ hsup) hk2.sound hp2
    (i := index (a.toNat / 4096) 1) rfl create
  generalize enterLast pmm_alloc_pages s2 _ create = r at h1
  rcases r with ⟨_ | pt, s3⟩
  · exact ⟨hk2.trans h1.1, nofun⟩
  obtain ⟨hk3, hl3⟩ := h1
  obtain ⟨hpt, hp3⟩ := hl3 pt rfl
  refine ⟨hk2.trans hk3, fun e he => ⟨_, hp3, ?_⟩⟩
  grind [slot_eq]

variable (pmm_alloc_pages) in
theorem enter_found {path : List (Fin 512)} {f g : Nat} {i : Fin 512}
    (hc : child path.length (tables s.mem f i) = some g) (create : Bool) :
    ∃ t, enter pmm_alloc_pages s (4096 * f + 8 * i) create = (some t, s) ∧
      In t PAGE_MASK ∧ t.toNat / 4096 = g := by
  obtain ⟨hp, -, hg⟩ := of_child hc
  exact ⟨_, if_neg hp, in_and _ _, hg.symm⟩

variable (pmm_alloc_pages) in
theorem enterLast_found {f g : Nat} {i : Fin 512}
    (hc : child 2 (tables s.mem f i) = some g) (create : Bool) :
    ∃ t, enterLast pmm_alloc_pages s (4096 * f + 8 * i) create = (some t, s) ∧
      In t PAGE_MASK ∧ t.toNat / 4096 = g := by
  obtain ⟨hp, hs, hg⟩ := of_child hc
  have he : load64 s.mem (4096 * f + 8 * i) = tables s.mem f i := rfl
  refine ⟨tables s.mem f i &&& PAGE_MASK, ?_, in_and _ _, hg.symm⟩
  grind [enterLast]

theorem walk_found {a : UInt64} {f : Nat}
    (hf : s.tableAt (pathOf (a.toNat / 4096)).tail = some f) (create : Bool) :
    walk pmm_alloc_pages s a create =
      (some (4096 * f + 8 * (index (a.toNat / 4096) 0).val), s) := by
  obtain ⟨pd, hpd, hc1⟩ := tableAt_above hf
  obtain ⟨p, hp, hc2⟩ := tableAt_above hpd
  obtain ⟨p4, hp4, hc3⟩ := tableAt_above hp
  cases hp4
  have ht : In (active_pml4 s) PAGE_MASK := in_and _ _
  have hr : s.root = (active_pml4 s).toNat / 4096 := rfl
  rw [hr] at hc3
  obtain ⟨t3, he3, hi3, rfl⟩ :=
    enter_found pmm_alloc_pages hc3 create
  obtain ⟨t2, he2, hi2, rfl⟩ :=
    enter_found pmm_alloc_pages hc2 create
  obtain ⟨t1, he1, hi1, rfl⟩ :=
    enterLast_found pmm_alloc_pages hc1 create
  grind [slot_eq, walk]

end

end mvh.vmm
