-- The calls of `vmm.c` as changes of one map from virtual pages to physical pages with
-- flags.
import MvhKernel.Runs
import MvhKernel.Tally
import MvhKernel.VmmWalk

open flat_memory table_tree masks

namespace mvh.vmm

variable {A : Type}

/-! ## Pages -/

abbrev Page := Fin (2 ^ 36)

def pageOf (address : UInt64) (h : address.toNat < 2 ^ 48) : Page :=
  ⟨address.toNat / 4096, by omega⟩

theorem pathOf_inj {page other : Page} (heq : pathOf page = pathOf other) : page = other := by
  have hi (l : Nat) (hl : index page l = index other l) :
      page.val / 512 ^ l % 512 = other.val / 512 ^ l % 512 := congrArg Fin.val hl
  grind [pathOf, List.cons.injEq, Fin.ext]

def Vmm.space (s : Vmm A) : Page → Option Mapping := fun page => s.mapping page

def Vmm.mappedPages (s : Vmm A) : Nat := tally.count (fun page => (s.space page).isSome) true

def Counted (s : Vmm A) : Prop := s.mapped_page_count.toNat = s.mappedPages

theorem mappedPages_le (s : Vmm A) : s.mappedPages ≤ 2 ^ 36 :=
  le_of_le_of_eq (tally.count_le _ _) (Fintype.card_fin _)

/-! ## One write of the last level -/

section
variable {fits : (Nat → Prop) → A → Prop} {s : Vmm A} {f : Nat} {page : Page} {e : UInt64}
variable (hf : s.tableAt (pathOf page).tail = some f)
include hf

theorem mapping_of_table : s.space page = small (tables s.mem f (index page 0)) := by
  show translate s.root (tables s.mem) page = _
  have he : entryAt child s.root (tables s.mem) (pathOf page) =
      some (tables s.mem f (index page 0)) := entryAt_cons hf (index page 0)
  rw [translate, he]

theorem space_write (h : Sound fits s) :
    Vmm.space { s with mem := store64 s.mem (4096 * f + 8 * (index page 0).val) e } =
      Function.update s.space page (small e) := by
  funext other
  show translate s.root (tables (store64 s.mem _ e)) other = _
  have hp : pathOf page = index page 0 :: (pathOf page).tail := rfl
  rw [tables_store, translate_set_small h.unshared hf rfl, ← hp]
  by_cases heq : other = page
  · rw [heq, if_pos rfl, Function.update_self]
  · rw [if_neg (fun hs => heq (pathOf_inj hs)), Function.update_of_ne heq]
    rfl

theorem sound_write (hshrinks : Shrinks fits) (h : Sound fits s) (mapped_page_count : UInt64) :
    Sound fits { s with
      mem := store64 s.mem (4096 * f + 8 * (index page 0).val) e, mapped_page_count } := by
  have hstore := tables_store s.mem f (index page 0) e
  have hold : child (pathOf page).tail.length (tables s.mem f (index page 0)) = none :=
    child_of_last _
  have hnew : child (pathOf page).tail.length e = none := child_of_last _
  constructor
  · show Unshared child s.root (tables (store64 s.mem _ e))
    rw [hstore]
    exact h.unshared.set_plain hf hold hnew
  · refine hshrinks _ _ _ h.fit fun g hg => ?_
    have hg : Uses child s.root (tables (store64 s.mem _ e)) g := hg
    rw [hstore] at hg
    exact (uses_set_plain h.unshared hf hold hnew g).mp hg

theorem table_write (h : Sound fits s) (mapped_page_count : UInt64) :
    let s' : Vmm A := { s with
      mem := store64 s.mem (4096 * f + 8 * (index page 0).val) e, mapped_page_count }
    s'.tableAt (pathOf page).tail = some f ∧ tables s'.mem f (index page 0) = e := by
  have hstore := tables_store s.mem f (index page 0) e
  constructor
  · show table_tree.tableAt child s.root (tables (store64 s.mem _ e)) _ = _
    rw [hstore, tableAt_set_plain h.unshared hf (child_of_last _) (child_of_last _)]
    exact hf
  simp [hstore, Tables.set_same]

end

theorem mappedPages_update {s s' : Vmm A} {page : Page} {m : Option Mapping}
    (h : s'.space = Function.update s.space page m) :
    s'.mappedPages + (if (s.space page).isSome = true then 1 else 0) =
      s.mappedPages + (if m.isSome = true then 1 else 0) := by
  unfold Vmm.mappedPages
  rw [h]
  exact tally.count_move s.space Option.isSome page m true

/-! ## The calls -/

section
variable {pmm_alloc_pages : Mem → A → UInt64 × A} {fits : (Nat → Prop) → A → Prop} {s : Vmm A}
variable (hsup : Supplies pmm_alloc_pages s.root fits) (h : Sound fits s)

theorem Keeps.space {s' : Vmm A} (h : Keeps fits s s') : s'.space = s.space :=
  funext fun page => h.mapping page

theorem Keeps.mappedPages {s' : Vmm A} (h : Keeps fits s s') : s'.mappedPages = s.mappedPages := by
  unfold Vmm.mappedPages
  rw [h.space]

theorem Keeps.counted {s' : Vmm A} (h : Keeps fits s s') (hc : Counted s) : Counted s' := by
  unfold Counted at *
  rw [h.count, h.mappedPages]
  exact hc

theorem aligned_of_mask {x : UInt64} (hx : ¬ x &&& (4096 - 1) ≠ 0) : x.toNat % 4096 = 0 := by
  rw [← low_bits, not_not.mp hx]
  rfl

theorem small_isSome (e : UInt64) : (small e).isSome = true ↔ e &&& VMM_PRESENT ≠ 0 := by
  simp [small]

/-- What a call does that changes the entry of its page: the page leads where the new entry says. -/
structure Writes (fits : (Nat → Prop) → A → Prop) (s s' : Vmm A) (page : Page) (e : UInt64) :
    Prop where
  cr3 : s'.cr3 = s.cr3
  sound : Sound fits s'
  space : s'.space = Function.update s.space page (small e)
  table : ∃ f, s'.tableAt (pathOf page).tail = some f ∧ tables s'.mem f (index page 0) = e

theorem Writes.counted {s s' : Vmm A} {page : Page} {e : UInt64} (hw : Writes fits s s' page e)
    (hc : Counted s)
    (hn : s'.mapped_page_count.toNat + (if (s.space page).isSome = true then 1 else 0) =
      s.mapped_page_count.toNat + (if (small e).isSome = true then 1 else 0)) : Counted s' := by
  have hu := mappedPages_update hw.space
  unfold Counted at *
  omega

theorem writes_of_walk (hshrinks : Shrinks fits) {s1 : Vmm A} (hkeeps : Keeps fits s s1)
    {page : Page} {f : Nat} (hf : s1.tableAt (pathOf page).tail = some f) (e mapped_page_count : UInt64) :
    Writes fits s { s1 with
      mem := store64 s1.mem (4096 * f + 8 * (index page 0).val) e, mapped_page_count } page e where
  cr3 := hkeeps.cr3
  sound := sound_write hf hshrinks hkeeps.sound mapped_page_count
  space := by
    rw [← hkeeps.space]
    exact space_write hf hkeeps.sound
  table := ⟨f, table_write hf hkeeps.sound mapped_page_count⟩

theorem isSome_of_walk {s1 : Vmm A} (hk : Keeps fits s s1) {page : Page} {f : Nat}
    (hf : s1.tableAt (pathOf page).tail = some f) :
    (s.space page).isSome = true ↔
      load64 s1.mem (4096 * f + 8 * (index page 0).val) &&& VMM_PRESENT ≠ 0 := by
  rw [← hk.space, mapping_of_table hf]
  exact small_isSome _

include hsup h

theorem vmm_map_page_spec (hcount : Counted s) {v : UInt64} (p flags : UInt64) {page : Page}
    (hpage : v.toNat / 4096 = page.val) :
    (∃ s', vmm_map_page pmm_alloc_pages s v p flags = (s', -1) ∧ Keeps fits s s') ∨
    ∃ s', vmm_map_page pmm_alloc_pages s v p flags = (s', 0) ∧
      v.toNat % 4096 = 0 ∧ p.toNat % 4096 = 0 ∧ Counted s' ∧
      Writes fits s s' page ((p &&& PAGE_MASK) ||| VMM_PRESENT ||| flags) := by
  unfold vmm_map_page
  split
  · exact Or.inl ⟨s, rfl, Keeps.refl h⟩
  rename_i haligned
  rw [not_or] at haligned
  obtain ⟨hkeeps, hentry⟩ := walk_spec hsup h v true
  rw [hpage] at hentry
  generalize walk pmm_alloc_pages s v true = r at hkeeps hentry
  rcases r with ⟨_ | entry, s1⟩
  · exact Or.inl ⟨s1, rfl, hkeeps⟩
  obtain ⟨f, hf, rfl⟩ := hentry entry rfl
  simp only at hkeeps hf ⊢
  have hwrites := writes_of_walk hsup.shrinks hkeeps hf ((p &&& PAGE_MASK) ||| VMM_PRESENT ||| flags)
  refine Or.inr ⟨_, rfl, aligned_of_mask haligned.1, aligned_of_mask haligned.2,
    (hwrites _).counted hcount ?_, hwrites _⟩
  have hroom := mappedPages_le s
  have hold := isSome_of_walk hkeeps hf
  unfold Counted at hcount
  rw [if_pos ((small_isSome _).mpr (entry_present (in_and p PAGE_MASK)))]
  simp only [hold, hkeeps.count]
  grind

theorem vmm_unmap_page_spec (hcount : Counted s) {v : UInt64} {page : Page}
    (hpage : v.toNat / 4096 = page.val) :
    (∃ s', vmm_unmap_page pmm_alloc_pages s v = (s', -1) ∧ Keeps fits s s') ∨
    ∃ s', vmm_unmap_page pmm_alloc_pages s v = (s', 0) ∧ v.toNat % 4096 = 0 ∧ Counted s' ∧
      Writes fits s s' page 0 := by
  unfold vmm_unmap_page
  split
  · exact Or.inl ⟨s, rfl, Keeps.refl h⟩
  rename_i haligned
  obtain ⟨hkeeps, hentry⟩ := walk_spec hsup h v false
  rw [hpage] at hentry
  generalize walk pmm_alloc_pages s v false = r at hkeeps hentry
  rcases r with ⟨_ | entry, s1⟩
  · exact Or.inl ⟨s1, rfl, hkeeps⟩
  obtain ⟨f, hf, rfl⟩ := hentry entry rfl
  simp only at hkeeps hf ⊢
  split
  · exact Or.inl ⟨s1, rfl, hkeeps⟩
  rename_i hpresent
  have hwrites := writes_of_walk hsup.shrinks hkeeps hf 0
  have hmapped := (isSome_of_walk hkeeps hf).mpr hpresent
  refine Or.inr ⟨_, rfl, aligned_of_mask haligned, (hwrites _).counted hcount ?_, hwrites _⟩
  have hpos : 0 < s.mapped_page_count.toNat := by
    have := tally.count_pos (f := fun page => (s.space page).isSome) hmapped
    grind [Counted, Vmm.mappedPages]
  have hzero : s.mapped_page_count ≠ 0 := fun heq => by
    rw [heq] at hpos
    exact absurd hpos (by decide)
  have hle : 1 ≤ s.mapped_page_count := by grind
  rw [if_pos hmapped, hkeeps.count]
  simp only
  rw [if_pos hzero, UInt64.toNat_sub_of_le _ _ hle]
  have hone : (1 : UInt64).toNat = 1 := rfl
  have hnone : (small 0).isSome = false := rfl
  grind

theorem vmm_query_page_keeps (v : UInt64) : Keeps fits s (vmm_query_page pmm_alloc_pages s v).1 := by
  unfold vmm_query_page
  grind [walk_spec]

omit hsup h in
theorem vmm_query_page_found {v : UInt64} {page : Page} (hp : v.toNat / 4096 = page.val) {f : Nat}
    (hf : s.tableAt (pathOf page).tail = some f) :
    (vmm_query_page pmm_alloc_pages s v).2 =
      if tables s.mem f (index page 0) &&& VMM_PRESENT = 0 then none
      else some ((tables s.mem f (index page 0) &&& PAGE_MASK) ||| (v &&& (4096 - 1)),
        tables s.mem f (index page 0) &&& ~~~ PAGE_MASK) := by
  have hr : load64 s.mem (4096 * f + 8 * (index page 0).val) = tables s.mem f (index page 0) := rfl
  unfold vmm_query_page
  rw [walk_found (hp ▸ hf), hp]
  simp only [hr]
  split <;> rfl

end

theorem page_or_offset {p : UInt64} (hp : In p PAGE_MASK) {v offset : UInt64}
    (hv : v.toNat % 4096 = 0) (ho : offset.toNat < 4096) :
    p ||| ((v + offset) &&& (4096 - 1)) = p + offset := by
  obtain ⟨hpg, hlt⟩ := (in_page_mask_iff p).mp hp
  have hl : ((v + offset) &&& (4096 - 1)).toNat = offset.toNat := by
    rw [low_bits, UInt64.toNat_add]
    omega
  have hw : p.toNat = 2 ^ 12 * (p.toNat / 4096) := by omega
  apply UInt64.toNat_inj.mp
  rw [UInt64.toNat_or, hl, UInt64.toNat_add, Nat.mod_eq_of_lt (by omega), hw]
  exact (Nat.two_pow_add_eq_or_of_lt ho _).symm

theorem query_after_map {pmm_alloc_pages : Mem → A → UInt64 × A} {fits : (Nat → Prop) → A → Prop}
    {s s' : Vmm A} {v p fl o : UInt64} {page : Page} (hpg : v.toNat / 4096 = page.val)
    (hv : v.toNat % 4096 = 0) (hp : In p PAGE_MASK) (hfl : In fl VMM_FLAGS)
    (ho : o.toNat < 4096) (hw : Writes fits s s' page (p ||| VMM_PRESENT ||| fl)) :
    (vmm_query_page pmm_alloc_pages s' (v + o)).2 =
      some (p + o, fl ||| VMM_PRESENT) := by
  obtain ⟨f, hf, he⟩ := hw.table
  have hr := page.isLt
  have hs : (v + o).toNat = v.toNat + o.toNat := by
    rw [UInt64.toNat_add]
    omega
  rw [vmm_query_page_found (by omega) hf, he, if_neg (entry_present hp), entry_address hp hfl,
    entry_rest hp hfl, page_or_offset hp hv ho, UInt64.or_comm]

theorem space_after_unmap {fits : (Nat → Prop) → A → Prop} {s s' : Vmm A} {page : Page}
    (hw : Writes fits s s' page 0) : s'.space page = none := by
  rw [hw.space, Function.update_self]
  rfl

theorem query_after_unmap {pmm_alloc_pages : Mem → A → UInt64 × A}
    {fits : (Nat → Prop) → A → Prop} {s s' : Vmm A} {v : UInt64} {page : Page}
    (hp : v.toNat / 4096 = page.val) (hw : Writes fits s s' page 0) :
    (vmm_query_page pmm_alloc_pages s' v).2 = none := by
  obtain ⟨f, hf, he⟩ := hw.table
  rw [vmm_query_page_found hp hf, he]
  exact if_pos rfl

end mvh.vmm
