-- The page allocator of `pmm.c`: one bit for each page of 4096 bytes, a first fit search
-- over the bits, and counters beside them.
import MvhKernel.Bitmap

open bitmap

namespace mvh.pmm

/-! ## The state -/

def PMM_MAX_PAGES : UInt32 := 1048576

def PMM_BITMAP_BYTES : Nat := 131072

structure Pmm where
  page_bitmap : Nat → UInt8
  managed_pages : UInt32
  reserved_pages : UInt32
  used_pages : UInt32
  allocation_requests : UInt64
  free_requests : UInt64
  failed_allocations : UInt64
  peak_used_pages : UInt32

def page_set (page_bitmap : Nat → UInt8) (page : UInt32) : Option (Nat → UInt8) :=
  let i := (page >>> 3).toNat
  if i < PMM_BITMAP_BYTES then
    some (Function.update page_bitmap i (page_bitmap i ||| ((1 : UInt32) <<< (page &&& 7)).toUInt8))
  else none

def page_clear (page_bitmap : Nat → UInt8) (page : UInt32) : Option (Nat → UInt8) :=
  let i := (page >>> 3).toNat
  if i < PMM_BITMAP_BYTES then
    some (Function.update page_bitmap i
      (page_bitmap i &&& (~~~ ((1 : UInt32) <<< (page &&& 7))).toUInt8))
  else none

def page_used (page_bitmap : Nat → UInt8) (page : UInt32) : Option UInt8 :=
  let i := (page >>> 3).toNat
  if i < PMM_BITMAP_BYTES then some (page_bitmap i &&& ((1 : UInt32) <<< (page &&& 7)).toUInt8)
  else none

/-! ## The calls

A loop of the source that counts up to a bound takes the number of turns left as its first
argument. -/

def pmm_init_loop : Nat → UInt32 → (Nat → UInt8) → Option (Nat → UInt8)
  | 0, _, page_bitmap => some page_bitmap
  | left + 1, page, page_bitmap => do
    let page_bitmap ← page_clear page_bitmap page
    pmm_init_loop left (page + 1) page_bitmap

def pmm_init_limit (memory_kib kernel_end mapped_limit : UInt64) : Option Pmm := do
  let bytes := memory_kib * 1024
  let mapped_limit :=
    if mapped_limit = 0 ∨ mapped_limit > 0x100000000 then 0x40000000 else mapped_limit
  let bytes := if bytes > mapped_limit then mapped_limit else bytes
  let managed_pages := (bytes / 4096).toUInt32
  let managed_pages := if managed_pages > PMM_MAX_PAGES then PMM_MAX_PAGES else managed_pages
  let reserved_pages := ((kernel_end + 4096 - 1) / 4096).toUInt32
  let reserved_pages := if reserved_pages > managed_pages then managed_pages else reserved_pages
  let page_bitmap ← pmm_init_loop (managed_pages.toNat - reserved_pages.toNat) reserved_pages
    fun _ => 0xFF
  some { page_bitmap, managed_pages, reserved_pages
         used_pages := reserved_pages
         allocation_requests := 0, free_requests := 0, failed_allocations := 0
         peak_used_pages := reserved_pages }

/-- The inner loop of `pmm_alloc_pages`: the values of `start` and `found` after it. -/
def pmm_scan_loop (page_bitmap : Nat → UInt8) :
    Nat → UInt32 → UInt32 → UInt32 → Option (UInt32 × UInt32)
  | 0, start, _, found => some (start, found)
  | left + 1, start, page, found => do
    let used ← page_used page_bitmap (start + page)
    if used ≠ 0 then some (start + page, found)
    else pmm_scan_loop page_bitmap left start (page + 1) (found + 1)

/-- The outer loop: the start of the run that it finds, if there is one. -/
def pmm_search_loop (page_bitmap : Nat → UInt8) (managed_pages count : UInt32) :
    Nat → UInt32 → Option (Option UInt32)
  | 0, _ => none
  | fuel + 1, start =>
    if start + count ≤ managed_pages then do
      let (start, found) ← pmm_scan_loop page_bitmap count.toNat start 0 0
      if found = count then some (some start)
      else pmm_search_loop page_bitmap managed_pages count fuel (start + 1)
    else some none

def pmm_mark_loop (start : UInt32) : Nat → UInt32 → (Nat → UInt8) → Option (Nat → UInt8)
  | 0, _, page_bitmap => some page_bitmap
  | left + 1, page, page_bitmap => do
    let page_bitmap ← page_set page_bitmap (start + page)
    pmm_mark_loop start left (page + 1) page_bitmap

def pmm_alloc_pages (s : Pmm) (count : UInt32) : Option (UInt64 × Pmm) :=
  let s := { s with allocation_requests := s.allocation_requests + 1 }
  if count = 0 ∨ count > s.managed_pages then
    some (0, { s with failed_allocations := s.failed_allocations + 1 })
  else do
    match ← pmm_search_loop s.page_bitmap s.managed_pages count (s.managed_pages.toNat + 1)
        s.reserved_pages with
    | some start =>
      let page_bitmap ← pmm_mark_loop start count.toNat 0 s.page_bitmap
      let used_pages := s.used_pages + count
      some (start.toUInt64 * 4096, { s with
        page_bitmap, used_pages
        peak_used_pages := if used_pages > s.peak_used_pages then used_pages else s.peak_used_pages })
    | none => some (0, { s with failed_allocations := s.failed_allocations + 1 })

def pmm_free_loop (start : UInt32) :
    Nat → UInt32 → (Nat → UInt8) → UInt32 → Option ((Nat → UInt8) × UInt32)
  | 0, _, page_bitmap, used_pages => some (page_bitmap, used_pages)
  | left + 1, page, page_bitmap, used_pages => do
    let used ← page_used page_bitmap (start + page)
    if used ≠ 0 then do
      let page_bitmap ← page_clear page_bitmap (start + page)
      pmm_free_loop start left (page + 1) page_bitmap (used_pages - 1)
    else pmm_free_loop start left (page + 1) page_bitmap used_pages

def pmm_free_pages (s : Pmm) (address : UInt64) (count : UInt32) : Option Pmm := do
  let start := (address / 4096).toUInt32
  let s := { s with free_requests := s.free_requests + 1 }
  if count = 0 ∨ address &&& (4096 - 1) ≠ 0 ∨ start < s.reserved_pages ∨
      start + count > s.managed_pages then some s
  else do
    let (page_bitmap, used_pages) ← pmm_free_loop start count.toNat 0 s.page_bitmap s.used_pages
    some { s with page_bitmap, used_pages }

/-! ## One page -/

def Pmm.Used (s : Pmm) (page : Nat) : Prop := test s.page_bitmap page = true

instance (s : Pmm) (page : Nat) : Decidable (s.Used page) :=
  inferInstanceAs (Decidable (_ = true))

theorem shiftRight_three (p : UInt32) : (p >>> 3).toNat = p.toNat / 8 := by
  rw [UInt32.toNat_shiftRight]
  exact Nat.shiftRight_eq_div_pow _ 3

theorem byte_in_bitmap (p : UInt32) :
    p.toNat / 8 < PMM_BITMAP_BYTES ↔ p.toNat < 1048576 := by
  unfold PMM_BITMAP_BYTES
  omega

theorem page_mask (p : UInt32) : ((1 : UInt32) <<< (p &&& 7)).toUInt8 = mask p.toNat := by
  have hl : (p &&& 7).toNat = p.toNat % 8 := by
    rw [UInt32.toNat_and]
    exact Nat.and_two_pow_sub_one_eq_mod _ 3
  have hr : p.toNat % 8 < 8 := Nat.mod_lt _ (by decide)
  have hp : p &&& 7 = UInt32.ofNat (p.toNat % 8) := by
    rw [← hl, UInt32.ofNat_toNat]
  rw [hp, mask]
  generalize p.toNat % 8 = r at hr
  revert r
  decide

theorem page_set_eq (b : Nat → UInt8) (p : UInt32) :
    page_set b p = if p.toNat < 1048576 then some (set b p.toNat) else none := by
  unfold page_set
  simp only [shiftRight_three, byte_in_bitmap, page_mask]
  rfl

theorem page_clear_eq (b : Nat → UInt8) (p : UInt32) :
    page_clear b p = if p.toNat < 1048576 then some (clear b p.toNat) else none := by
  have hn : (~~~ ((1 : UInt32) <<< (p &&& 7))).toUInt8 = ~~~ mask p.toNat := by
    rw [UInt32.toUInt8_not, page_mask]
  unfold page_clear
  simp only [shiftRight_three, byte_in_bitmap, hn]
  rfl

theorem page_used_eq (b : Nat → UInt8) (p : UInt32) :
    ∃ bt, (bt ≠ 0 ↔ test b p.toNat = true) ∧
      page_used b p = if p.toNat < 1048576 then some bt else none := by
  refine ⟨b (p.toNat / 8) &&& mask p.toNat, and_mask_ne_zero b p.toNat, ?_⟩
  unfold page_used
  simp only [shiftRight_three, byte_in_bitmap, page_mask]

/-! ## The loops -/

theorem toNat_add_of_lt {a b : UInt32} (h : a.toNat + b.toNat < 2 ^ 32) :
    (a + b).toNat = a.toNat + b.toNat := by
  rw [UInt32.toNat_add, Nat.mod_eq_of_lt h]

theorem toNat_add_one {a : UInt32} (h : a.toNat + 1 < 2 ^ 32) : (a + 1).toNat = a.toNat + 1 :=
  toNat_add_of_lt h

theorem pmm_init_loop_eq (left : Nat) (p : UInt32) (b : Nat → UInt8)
    (h : p.toNat + left ≤ 1048576) :
    ∃ b', pmm_init_loop left p b = some b' ∧ ∀ i, test b' i =
      (!decide (p.toNat ≤ i ∧ i < p.toNat + left) && test b i) := by
  induction left generalizing p b with
  | zero =>
    refine ⟨b, rfl, fun i => ?_⟩
    grind
  | succ left ih =>
    have hn : (p + 1).toNat = p.toNat + 1 := toNat_add_one (by omega)
    obtain ⟨b', hl, hb⟩ := ih (p + 1) (clear b p.toNat) (by omega)
    refine ⟨b', ?_, fun i => ?_⟩
    · grind [pmm_init_loop, page_clear_eq]
    grind [test_clear, Bool.decide_or, Bool.not_or, Bool.and_assoc, Bool.and_comm]

theorem pmm_mark_loop_eq (s : UInt32) (left : Nat) (p : UInt32) (b : Nat → UInt8)
    (h : s.toNat + p.toNat + left ≤ 1048576) :
    ∃ b', pmm_mark_loop s left p b = some b' ∧ ∀ i, test b' i =
      (decide (s.toNat + p.toNat ≤ i ∧ i < s.toNat + p.toNat + left) || test b i) := by
  induction left generalizing p b with
  | zero =>
    refine ⟨b, rfl, fun i => ?_⟩
    simp
  | succ left ih =>
    have hp : (s + p).toNat = s.toNat + p.toNat := toNat_add_of_lt (by omega)
    have hn : (p + 1).toNat = p.toNat + 1 := toNat_add_one (by omega)
    obtain ⟨b', hl, hb⟩ := ih (p + 1) (set b (s.toNat + p.toNat)) (by omega)
    grind [pmm_mark_loop, page_set_eq, test_set, Bool.decide_or, Bool.or_assoc]

theorem pmm_scan_loop_eq (b : Nat → UInt8) (left : Nat) (s p f : UInt32)
    (h : s.toNat + p.toNat + left ≤ 1048576) (hf : f.toNat + left < 2 ^ 32) :
    ∃ s' f', pmm_scan_loop b left s p f = some (s', f') ∧
      ((s' = s ∧ f'.toNat = f.toNat + left ∧
          ∀ i, s.toNat + p.toNat ≤ i → i < s.toNat + p.toNat + left →
            test b i = false) ∨
        ∃ k < left, s'.toNat = s.toNat + p.toNat + k ∧
          f'.toNat = f.toNat + k ∧ test b s'.toNat = true) := by
  induction left generalizing p f with
  | zero => exact ⟨s, f, rfl, Or.inl ⟨rfl, rfl, fun i h1 h2 => by omega⟩⟩
  | succ left ih =>
    have hp : (s + p).toNat = s.toNat + p.toNat := toNat_add_of_lt (by omega)
    have hn : (p + 1).toNat = p.toNat + 1 := toNat_add_one (by omega)
    have hfn : (f + 1).toNat = f.toNat + 1 := toNat_add_one (by omega)
    obtain ⟨bt, hb, hu⟩ := page_used_eq b (s + p)
    rw [if_pos (by omega)] at hu
    by_cases ht : test b (s + p).toNat = true
    · refine ⟨s + p, f, ?_, Or.inr ⟨0, by omega, hp, rfl, ht⟩⟩
      grind [pmm_scan_loop]
    · obtain ⟨s', f', hl, hc⟩ := ih (p + 1) (f + 1) (by omega) (by omega)
      refine ⟨s', f', ?_, ?_⟩
      · grind [pmm_scan_loop]
      · rcases hc with ⟨h1, h2, h3⟩ | ⟨k, hk, h1, h2, h3⟩
        · grind
        · exact Or.inr ⟨k + 1, by omega, by omega, by omega, h3⟩

def FreeRun (b : Nat → UInt8) (start count : Nat) : Prop :=
  ∀ i, start ≤ i → i < start + count → test b i = false

theorem pmm_search_loop_eq {b : Nat → UInt8} {m c : UInt32}
    (hm : m.toNat ≤ 1048576) (fl : Nat) (st : UInt32)
    (hs : st.toNat ≤ m.toNat) (hcn : c.toNat ≤ m.toNat)
    (hfl : m.toNat < st.toNat + fl) :
    ∃ r, pmm_search_loop b m c fl st = some r ∧
      match r with
      | none => ∀ s, st.toNat ≤ s → s + c.toNat ≤ m.toNat → ¬ FreeRun b s c.toNat
      | some first => st.toNat ≤ first.toNat ∧ first.toNat + c.toNat ≤ m.toNat ∧
          FreeRun b first.toNat c.toNat ∧
          ∀ s, st.toNat ≤ s → s < first.toNat → ¬ FreeRun b s c.toNat := by
  induction fl generalizing st with
  | zero => omega
  | succ fl ih =>
    have hsm : (st + c).toNat = st.toNat + c.toNat := toNat_add_of_lt (by omega)
    rw [pmm_search_loop]
    by_cases hft : st + c ≤ m
    · rw [if_pos hft]
      rw [UInt32.le_iff_toNat_le, hsm] at hft
      obtain ⟨st', f, hsc, hc⟩ :=
        pmm_scan_loop_eq b c.toNat st 0 0 (by simp; omega) (by simp; omega)
      simp only [UInt32.toNat_zero, Nat.add_zero, Nat.zero_add] at hc
      rw [hsc]
      simp only [Option.bind_eq_bind, Option.bind_some]
      rcases hc with ⟨rfl, hf, hfr⟩ | ⟨k, hk, hst, hf, hu⟩
      · rw [if_pos (UInt32.toNat_inj.mp hf)]
        exact ⟨some st', rfl, Nat.le_refl _, hft, hfr, fun s h1 h2 => by omega⟩
      · -- No run that starts at or before the page in use is free.
        have hsk : ∀ s, st.toNat ≤ s → s ≤ st'.toNat → ¬ FreeRun b s c.toNat := by
          intro s h1 h2 hrn
          rw [hrn st'.toNat h2 (by omega)] at hu
          cases hu
        have hn : (st' + 1).toNat = st'.toNat + 1 := toNat_add_one (by omega)
        rw [if_neg (fun he => by rw [he] at hf; omega)]
        obtain ⟨r, hl, hr⟩ := ih (st' + 1) (by omega) (by omega)
        refine ⟨r, hl, ?_⟩
        rcases r with _ | first
        · grind
        grind
    · rw [if_neg hft]
      grind [UInt32.le_iff_toNat_le]

theorem pmm_free_loop_eq {m : Nat} (hm : m ≤ 1048576) (s : UInt32) (left : Nat)
    (p : UInt32) (b : Nat → UInt8) (u : UInt32)
    (h : s.toNat + p.toNat + left ≤ m) (hu : u.toNat = (marked b m).card) :
    ∃ b' u', pmm_free_loop s left p b u = some (b', u') ∧
      u'.toNat = (marked b' m).card ∧ u'.toNat ≤ u.toNat ∧ ∀ i, test b' i =
      (!decide (s.toNat + p.toNat ≤ i ∧ i < s.toNat + p.toNat + left) && test b i) := by
  induction left generalizing p b u with
  | zero =>
    refine ⟨b, u, rfl, hu, Nat.le_refl _, fun i => ?_⟩
    grind
  | succ left ih =>
    have hp : (s + p).toNat = s.toNat + p.toNat := toNat_add_of_lt (by omega)
    have hn : (p + 1).toNat = p.toNat + 1 := toNat_add_one (by omega)
    have hs : ∀ i, (s.toNat + p.toNat ≤ i ∧ i < s.toNat + p.toNat + (left + 1)) ↔
        (s.toNat + (p.toNat + 1) ≤ i ∧ i < s.toNat + (p.toNat + 1) + left) ∨
          i = s.toNat + p.toNat := fun i => by omega
    obtain ⟨bt, hbt, hb⟩ := page_used_eq b (s + p)
    rw [hp] at hbt hb
    rw [if_pos (by omega)] at hb
    by_cases hts : test b (s.toNat + p.toNat) = true
    · have hcr := card_marked_clear (n := m) (by omega) hts
      have ho : (u - 1).toNat = u.toNat - 1 := by
        grind [UInt32.toNat_sub_of_le, UInt32.le_iff_toNat_le, UInt32.toNat_one]
      obtain ⟨b', u', hl, hc, hle, ht⟩ :=
        ih (p + 1) (clear b (s.toNat + p.toNat)) (u - 1) (by omega) (by omega)
      refine ⟨b', u', ?_, hc, by omega, fun i => ?_⟩
      · grind [pmm_free_loop, Option.bind_eq_bind, Option.bind_some, page_clear_eq]
      · rw [ht, hn, test_clear]
        grind
    · obtain ⟨b', u', hl, hc, hle, ht⟩ := ih (p + 1) b u (by omega) hu
      grind [pmm_free_loop]

theorem pmm_free_loop_outside (s : UInt32) (left : Nat) (p : UInt32) (b : Nat → UInt8)
    (u : UInt32) (h : s.toNat + p.toNat < 2 ^ 32) (hl : 0 < left)
    (ho : 1048576 < s.toNat + p.toNat + left) :
    pmm_free_loop s left p b u = none := by
  induction left generalizing p b u with
  | zero => omega
  | succ left ih =>
    have hp : (s + p).toNat = s.toNat + p.toNat := toNat_add_of_lt h
    obtain ⟨bt, hbt, hb⟩ := page_used_eq b (s + p)
    rw [hp] at hb
    by_cases hin : s.toNat + p.toNat < 1048576
    · grind [pmm_free_loop, Option.bind_eq_bind, Option.bind_some, page_clear_eq, toNat_add_one]
    simp [hin, pmm_free_loop, hb]

end mvh.pmm
