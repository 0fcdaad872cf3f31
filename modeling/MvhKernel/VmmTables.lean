-- What the page tables mean: the entries of memory as a tree of tables, and the physical
-- page and flags that the tree gives for every virtual page.
import MvhKernel.Masks
import MvhKernel.TableTree
import MvhKernel.Vmm

open flat_memory table_tree masks

namespace mvh.vmm

/-! ## Bits -/

def VMM_FLAGS : UInt64 := VMM_PRESENT ||| VMM_WRITABLE ||| VMM_USER ||| VMM_WRITE_THROUGH |||
  VMM_CACHE_DISABLE ||| VMM_GLOBAL ||| VMM_NO_EXECUTE

theorem toNat_page_mask (x : UInt64) :
    (x &&& PAGE_MASK).toNat = x.toNat % 2 ^ 52 / 4096 * 4096 := by
  rw [UInt64.toNat_and]
  exact nat_and_mask x.toNat (show 12 ≤ 52 by decide)

theorem in_page_mask_iff (p : UInt64) :
    In p PAGE_MASK ↔ p.toNat % 4096 = 0 ∧ p.toNat < 2 ^ 52 := by
  unfold In
  rw [← UInt64.toNat_inj, toNat_page_mask]
  omega

theorem low_bits (x : UInt64) : (x &&& (4096 - 1)).toNat = x.toNat % 4096 := by
  rw [UInt64.toNat_and]
  exact Nat.and_two_pow_sub_one_eq_mod _ 12

theorem present_bit {e : UInt64} (h : e &&& VMM_PRESENT ≠ 0) : e &&& VMM_PRESENT = VMM_PRESENT := by
  have hb : (e &&& VMM_PRESENT).toNat = e.toNat % 2 := by
    rw [UInt64.toNat_and]
    exact Nat.and_two_pow_sub_one_eq_mod _ 1
  have hone : VMM_PRESENT.toNat = 1 := rfl
  grind

section
variable {p f : UInt64}

theorem entry_address (hp : In p PAGE_MASK) (hf : In f VMM_FLAGS) :
    (p ||| VMM_PRESENT ||| f) &&& PAGE_MASK = p := by
  rw [UInt64.or_assoc]
  refine or_and_left hp (In.apart (In.or ?_ hf) ?_) <;> decide

theorem entry_flags (hp : In p PAGE_MASK) (hf : In f VMM_FLAGS) :
    (p ||| VMM_PRESENT ||| f) &&& VMM_FLAGS = VMM_PRESENT ||| f := by
  have hpr : In VMM_PRESENT VMM_FLAGS := by decide
  rw [UInt64.or_assoc, or_and_right (hp.apart (by decide)), hpr.or hf]

theorem entry_rest (hp : In p PAGE_MASK) (hf : In f VMM_FLAGS) :
    (p ||| VMM_PRESENT ||| f) &&& ~~~ PAGE_MASK = VMM_PRESENT ||| f := by
  have hpr : In VMM_PRESENT VMM_FLAGS := by decide
  have hr : In VMM_FLAGS (~~~ PAGE_MASK) := by decide
  rw [UInt64.or_assoc, or_and_right (hp.apart (by decide)), (hpr.or hf).mono hr]

theorem entry_present (hp : In p PAGE_MASK) : (p ||| VMM_PRESENT ||| f) &&& VMM_PRESENT ≠ 0 := by
  rw [UInt64.or_assoc, or_and_right (hp.apart (by decide)), or_and_self]
  decide

theorem entry_not_huge (hp : In p PAGE_MASK) (hf : In f VMM_FLAGS) :
    (p ||| VMM_PRESENT ||| f) &&& PAGE_HUGE = 0 := by
  have hpr : In VMM_PRESENT VMM_FLAGS := by decide
  rw [UInt64.or_assoc, or_and_right (hp.apart (by decide))]
  exact (hpr.or hf).apart (by decide)

end

/-! ## The tree -/

def tables (m : Mem) : Tables (Fin 512) UInt64 := fun f i => load64 m (4096 * f + 8 * i)

/-- The table that an entry of a level leads to. -/
def child (level : Nat) (e : UInt64) : Option Nat :=
  if e &&& VMM_PRESENT = 0 ∨ 3 ≤ level ∨ level = 2 ∧ e &&& PAGE_HUGE ≠ 0 then none
  else some ((e &&& PAGE_MASK).toNat / 4096)

/-- Where a virtual page leads: a physical page, with flags. -/
structure Mapping where
  physical : UInt64
  flags : UInt64

def small (e : UInt64) : Option Mapping :=
  if e &&& VMM_PRESENT = 0 then none else some ⟨e &&& PAGE_MASK, e &&& VMM_FLAGS⟩

/-- What an entry of the third level says about one of its pages, when it is a large page. -/
def large (e : UInt64) (i : Fin 512) : Option Mapping :=
  if e &&& VMM_PRESENT = 0 ∨ e &&& PAGE_HUGE = 0 then none
  else some ⟨(e &&& 0x000FFFFFFFE00000) + UInt64.ofNat i * 4096, e &&& VMM_FLAGS⟩

def index (page level : Nat) : Fin 512 := Fin.ofNat 512 (page / 512 ^ level)

def pathOf (page : Nat) : List (Fin 512) := [index page 0, index page 1, index page 2, index page 3]

def translate (root : Nat) (t : Tables (Fin 512) UInt64) (page : Nat) : Option Mapping :=
  match entryAt child root t (pathOf page) with
  | some e => small e
  | none => (entryAt child root t (pathOf page).tail).bind fun e => large e (index page 0)

/-! ## Entries -/

theorem child_of_absent {l : Nat} {e : UInt64} (h : e &&& VMM_PRESENT = 0) :
    child l e = none := if_pos (Or.inl h)

theorem child_of_last (e : UInt64) : child 3 e = none := if_pos (Or.inr (Or.inl (le_refl 3)))

theorem child_of_large {e : UInt64} (h : e &&& PAGE_HUGE ≠ 0) : child 2 e = none :=
  if_pos (Or.inr (Or.inr ⟨rfl, h⟩))

theorem child_of_table {l : Nat} {e : UInt64} (hl : l < 3) (h : e &&& VMM_PRESENT ≠ 0)
    (hs : l = 2 → e &&& PAGE_HUGE = 0) :
    child l e = some ((e &&& PAGE_MASK).toNat / 4096) := by
  refine if_neg ?_
  grind

theorem of_child {l f : Nat} {e : UInt64} (h : child l e = some f) :
    e &&& VMM_PRESENT ≠ 0 ∧ (l = 2 → e &&& PAGE_HUGE = 0) ∧
      f = (e &&& PAGE_MASK).toNat / 4096 := by grind [child]

theorem child_link {l : Nat} {p f : UInt64} (hl : l < 3) (hp : In p PAGE_MASK)
    (hf : In f VMM_FLAGS) : child l (p ||| VMM_PRESENT ||| f) = some (p.toNat / 4096) := by
  rw [child_of_table hl (entry_present hp) fun _ => entry_not_huge hp hf, entry_address hp hf]

theorem small_of_absent {e : UInt64} (h : e &&& VMM_PRESENT = 0) : small e = none := if_pos h

theorem large_of_absent {e : UInt64} (h : e &&& VMM_PRESENT = 0) (i : Fin 512) :
    large e i = none := if_pos (Or.inl h)

theorem small_entry {p f : UInt64} (hp : In p PAGE_MASK) (hf : In f VMM_FLAGS) :
    small (p ||| VMM_PRESENT ||| f) = some ⟨p, VMM_PRESENT ||| f⟩ := by
  rw [small, if_neg (entry_present hp), entry_address hp hf, entry_flags hp hf]

theorem in_mask_of_large (e : UInt64) (i : Fin 512) :
    In ((e &&& 0x000FFFFFFFE00000) + UInt64.ofNat i * 4096) PAGE_MASK := by
  have hb : (e &&& 0x000FFFFFFFE00000).toNat = e.toNat % 2 ^ 52 / 2 ^ 21 * 2 ^ 21 := by
    rw [UInt64.toNat_and]
    exact nat_and_mask e.toNat (show 21 ≤ 52 by decide)
  have hi := i.isLt
  have ho : (UInt64.ofNat i * 4096).toNat = i.val * 4096 := by
    grind [UInt64.toNat_mul, UInt64.toNat_ofNat_of_lt']
  rw [in_page_mask_iff, UInt64.toNat_add, hb, ho]
  omega

theorem split_flags {e : UInt64} (h : e &&& VMM_PRESENT ≠ 0) :
    VMM_PRESENT ||| (e &&& (VMM_WRITABLE ||| VMM_USER ||| VMM_WRITE_THROUGH |||
      VMM_CACHE_DISABLE ||| VMM_GLOBAL ||| VMM_NO_EXECUTE)) = e &&& VMM_FLAGS := by
  have ha : VMM_FLAGS = VMM_PRESENT ||| (VMM_WRITABLE ||| VMM_USER ||| VMM_WRITE_THROUGH |||
    VMM_CACHE_DISABLE ||| VMM_GLOBAL ||| VMM_NO_EXECUTE) := by decide
  grind [UInt64.and_comm, or_and, present_bit]

theorem large_of_large {e : UInt64} (h : e &&& VMM_PRESENT ≠ 0) (hh : e &&& PAGE_HUGE ≠ 0)
    (i : Fin 512) : large e i =
      some ⟨(e &&& 0x000FFFFFFFE00000) + UInt64.ofNat i * 4096, e &&& VMM_FLAGS⟩ := by
  refine if_neg ?_
  grind

theorem small_splitEntry {e : UInt64} (h : e &&& VMM_PRESENT ≠ 0) (hh : e &&& PAGE_HUGE ≠ 0)
    (i : Fin 512) : small (splitEntry e i) = large e i := by
  unfold splitEntry
  rw [small_entry (in_mask_of_large e i) ((in_and _ _).mono (by decide)), split_flags h,
    large_of_large h hh]

/-! ## The memory -/

theorem tables_store (m : Mem) (f : Nat) (i : Fin 512) (e : UInt64) :
    tables (store64 m (4096 * f + 8 * i) e) = (tables m).set f i e := by
  funext g j
  have hi := i.isLt
  have hj := j.isLt
  grind [Tables.set_same, load64_store64, Tables.set_ne, load64_store64_ne, Fin.val_inj, tables]

theorem tables_writeEntries {tb : UInt64} {f : Nat} (hf : tb.toNat = 4096 * f)
    (v : Nat → UInt64) {a left : Nat} (h : a + left = 512) (m : Mem) :
    tables (writeEntries tb v a left m) =
      fun g (j : Fin 512) => if g = f ∧ a ≤ j.val then v j else tables m g j := by
  induction left generalizing a m with
  | zero =>
    funext g j
    have hj := j.isLt
    rw [if_neg (by omega)]
    rfl
  | succ left ih =>
    have hlt : a < 512 := by omega
    have hs := tables_store m f ⟨a, hlt⟩ (v a)
    rw [writeEntries, ih (by omega), hf, hs]
    grind [Tables.set_same, Tables.set_ne, Fin.val_inj]

theorem tables_write_all {tb : UInt64} {f : Nat} (hf : tb.toNat = 4096 * f)
    (v : Nat → UInt64) (m : Mem) :
    tables (writeEntries tb v 0 512 m) =
      fun g (j : Fin 512) => if g = f then v j else tables m g j := by
  rw [tables_writeEntries hf v (Nat.zero_add 512)]
  simp

/-! ## The translation -/

section
variable {root f : Nat} {i : Fin 512} {e : UInt64} {path : List (Fin 512)}
variable {t t' : Tables (Fin 512) UInt64}

theorem translate_congr (h : ∀ g, Uses child root t g → ∀ j, t' g j = t g j) (page : Nat) :
    translate root t' page = translate root t page := by
  unfold translate
  rw [entryAt_congr h, entryAt_congr h]

variable (hone : Unshared child root t) (hf : tableAt child root t path = some f)
include hone hf

theorem translate_set_small (hl : path.length = 3) (page : Nat) :
    translate root (t.set f i e) page =
      if pathOf page = i :: path then small e else translate root t page := by
  have hold : child path.length (t f i) = none := hl ▸ child_of_last _
  have hnew : child path.length e = none := hl ▸ child_of_last _
  have ht : (pathOf page).tail ≠ i :: path := by grind [pathOf]
  grind [entryAt_set_plain, translate]

variable {g : Nat} (hnew : child path.length e = some g) (hfresh : ¬ Uses child root t g)
include hnew hfresh

theorem translate_link_empty (hold : t f i &&& VMM_PRESENT = 0) (hem : ∀ j, t g j = 0)
    (hlv : path.length ≤ 2) (page : Nat) :
    translate root (t.set f i e) page = translate root t page := by
  have hn : child path.length (t f i) = none := child_of_absent hold
  have hl : ∀ j, child (path.length + 1) (t g j) = none := fun j => by grind [child_of_absent]
  have hb : tableAt child root t (i :: path) = none := by rw [tableAt_cons hf, hn]
  have hln : pathOf page ≠ i :: path := by grind [pathOf]
  unfold translate
  rw [entryAt_link hone hf hn hnew hfresh hl, entryAt_link hone hf hn hnew hfresh hl,
    if_neg hln]
  by_cases ht : (pathOf page).tail = i :: path
  · have he : entryAt child root t (pathOf page) = none := entryAt_below (ht ▸ hb)
    grind [entryAt_cons, pathOf, small_of_absent, large_of_absent]
  rw [if_neg ht, if_neg ht]
  by_cases htw : (pathOf page).tail.tail = i :: path
  · have he : entryAt child root t (pathOf page).tail = none := entryAt_below (htw ▸ hb)
    grind [pathOf, large_of_absent]
  · rw [if_neg htw]

theorem translate_link_split (hp : t f i &&& VMM_PRESENT ≠ 0)
    (hh : t f i &&& PAGE_HUGE ≠ 0) (hs : ∀ j : Fin 512, t g j = splitEntry (t f i) j)
    (hl : path.length = 2) (page : Nat) :
    translate root (t.set f i e) page = translate root t page := by
  have hn : child path.length (t f i) = none := hl ▸ child_of_large hh
  have hls : ∀ j, child (path.length + 1) (t g j) = none := by grind [child_of_last]
  have hb : tableAt child root t (i :: path) = none := by rw [tableAt_cons hf, hn]
  have hln : pathOf page ≠ i :: path := by grind [pathOf]
  have htw : (pathOf page).tail.tail ≠ i :: path := by grind [pathOf]
  unfold translate
  rw [entryAt_link hone hf hn hnew hfresh hls, entryAt_link hone hf hn hnew hfresh hls,
    if_neg hln, if_neg htw]
  by_cases ht : (pathOf page).tail = i :: path
  · have he : entryAt child root t (pathOf page) = none := entryAt_below (ht ▸ hb)
    rw [if_pos ht, he, ht, entryAt_cons hf]
    exact (congrArg small (hs (index page 0))).trans (small_splitEntry hp hh _)
  · rw [if_neg ht, if_neg ht]

end

end mvh.vmm
