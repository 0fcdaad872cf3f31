-- Runs of the page allocator: what the bitmap and the counters say stays true as long as
-- no free is given pages that its 32-bit arithmetic takes for others.
import MvhKernel.Pmm
import Mathlib.Data.UInt
import Mathlib.Logic.Relation
import Mathlib.Algebra.BigOperators.Group.List.Basic

open bitmap

namespace mvh.pmm

/-! ## The invariant -/

structure Consistent (s : Pmm) : Prop where
  managed_le : s.managed_pages.toNat ≤ 1048576
  reserved_le : s.reserved_pages.toNat ≤ s.managed_pages.toNat
  low : ∀ page < s.reserved_pages.toNat, s.Used page
  high : ∀ page, s.managed_pages.toNat ≤ page → page < 1048576 → s.Used page
  count : s.used_pages.toNat = (marked s.page_bitmap s.managed_pages.toNat).card
  peak : s.used_pages ≤ s.peak_used_pages

theorem test_full (i : Nat) : test (fun _ => 0xFF) i = true := by
  have hi : i % 8 < 8 := Nat.mod_lt _ (by decide)
  unfold test
  simp only
  generalize i % 8 = r at hi
  revert r
  decide

theorem clamp_le (a b : UInt32) : (if a > b then b else a).toNat ≤ b.toNat := by
  split
  · exact Nat.le_refl _
  · rename_i h
    exact UInt32.le_iff_toNat_le.mp (UInt32.not_lt.mp h)

theorem pmm_init_limit_eq (mm k m : UInt64) :
    ∃ s, pmm_init_limit mm k m = some s ∧ Consistent s ∧
      s.used_pages = s.reserved_pages ∧
      ∀ page, s.reserved_pages.toNat ≤ page → page < s.managed_pages.toNat → ¬ s.Used page := by
  unfold pmm_init_limit
  simp only
  generalize hm : (if _ > PMM_MAX_PAGES then PMM_MAX_PAGES else _) = managed
  generalize hr : (if _ > managed then managed else _) = reserved
  have hmn : managed.toNat ≤ 1048576 := by
    rw [← hm]
    exact clamp_le _ PMM_MAX_PAGES
  have hrs : reserved.toNat ≤ managed.toNat := by
    rw [← hr]
    exact clamp_le _ managed
  obtain ⟨b, hl, hb⟩ :=
    pmm_init_loop_eq (managed.toNat - reserved.toNat) reserved (fun _ => 0xFF) (by omega)
  have he : reserved.toNat + (managed.toNat - reserved.toNat) = managed.toNat := by omega
  rw [he] at hb
  have ht : ∀ i, test b i = true ↔ ¬ (reserved.toNat ≤ i ∧ i < managed.toNat) := by
    intro i
    rw [hb, test_full, Bool.and_true, Bool.not_eq_true', decide_eq_false_iff_not]
  rw [hl]
  refine ⟨_, rfl, ⟨hmn, hrs, ?_, ?_, ?_, UInt32.le_refl _⟩, rfl, ?_⟩
  · intro page hp
    simp only at hp
    exact (ht page).mpr (by omega)
  · intro page h1 h2
    simp only at h1
    exact (ht page).mpr (by omega)
  · grind [card_marked_of_lt]
  · intro page h1 h2 hu
    exact (ht page).mp hu ⟨h1, h2⟩

/-! ## One allocation -/

def Pmm.taken (s : Pmm) (page_bitmap : Nat → UInt8) (count : UInt32) : Pmm :=
  { s with
    page_bitmap
    allocation_requests := s.allocation_requests + 1
    used_pages := s.used_pages + count
    peak_used_pages :=
      if s.used_pages + count > s.peak_used_pages then s.used_pages + count
      else s.peak_used_pages }

def Pmm.refused (s : Pmm) : Pmm :=
  { s with
    allocation_requests := s.allocation_requests + 1
    failed_allocations := s.failed_allocations + 1 }

theorem pmm_alloc_pages_eq {s : Pmm} (hm : s.managed_pages.toNat ≤ 1048576)
    (hr : s.reserved_pages.toNat ≤ s.managed_pages.toNat) (c : UInt32) :
    (pmm_alloc_pages s c = some (0, s.refused) ∧ (c = 0 ∨
      ∀ st, s.reserved_pages.toNat ≤ st → st + c.toNat ≤ s.managed_pages.toNat →
        ¬ FreeRun s.page_bitmap st c.toNat)) ∨
    ∃ (st : UInt32) (b : Nat → UInt8), c ≠ 0 ∧
      pmm_alloc_pages s c = some (st.toUInt64 * 4096, s.taken b c) ∧
      s.reserved_pages.toNat ≤ st.toNat ∧
      st.toNat + c.toNat ≤ s.managed_pages.toNat ∧
      FreeRun s.page_bitmap st.toNat c.toNat ∧
      (∀ first, s.reserved_pages.toNat ≤ first → first < st.toNat →
        ¬ FreeRun s.page_bitmap first c.toNat) ∧
      ∀ i, test b i =
        (decide (st.toNat ≤ i ∧ i < st.toNat + c.toNat) || test s.page_bitmap i) := by
  unfold pmm_alloc_pages
  simp only
  by_cases hg : c = 0 ∨ c > s.managed_pages
  · rw [if_pos hg]
    refine Or.inl ⟨rfl, ?_⟩
    rcases hg with h0 | hbg
    · exact Or.inl h0
    · refine Or.inr fun st _ he => ?_
      have := UInt32.lt_iff_toNat_lt.mp hbg
      omega
  · rw [if_neg hg]
    rw [not_or] at hg
    have hc := UInt32.le_iff_toNat_le.mp (UInt32.not_lt.mp hg.2)
    obtain ⟨r, hs, hf⟩ := pmm_search_loop_eq (b := s.page_bitmap) hm
      (s.managed_pages.toNat + 1) s.reserved_pages hr hc (by omega)
    rw [hs]
    simp only [Option.bind_eq_bind, Option.bind_some]
    rcases r with _ | st
    · exact Or.inl ⟨rfl, Or.inr hf⟩
    · obtain ⟨hl, he, hfe, hfr⟩ := hf
      obtain ⟨b, hmr, hb⟩ := pmm_mark_loop_eq st c.toNat 0 s.page_bitmap
        (by simp; omega)
      simp only [UInt32.toNat_zero, Nat.add_zero] at hb
      refine Or.inr ⟨st, b, hg.1, ?_, hl, he, hfe, hfr, hb⟩
      simp only [hmr, Option.bind_some]
      rfl

theorem toNat_address {s : UInt32} : (s.toUInt64 * 4096).toNat = s.toNat * 4096 := by
  have := s.toNat_lt
  rw [UInt64.toNat_mul, UInt32.toNat_toUInt64]
  grind

/-- With page 0 reserved, an allocation of any count in any bitmap takes the lowest run of free pages.
It gives null for no pages and when there is no such run, and then the bitmap and the number of used
pages stay. -/
theorem the_lowest_free_run_is_taken {s : Pmm} (hone : 1 ≤ s.reserved_pages.toNat)
    (hr : s.reserved_pages.toNat ≤ s.managed_pages.toNat) (hm : s.managed_pages.toNat ≤ 1048576)
    (count : UInt32) :
    ∃ p s', pmm_alloc_pages s count = some (p, s') ∧
      (p = 0 ↔ count = 0 ∨ ¬ ∃ start, s.reserved_pages.toNat ≤ start ∧
        start + count.toNat ≤ s.managed_pages.toNat ∧ FreeRun s.page_bitmap start count.toNat) ∧
      (p = 0 → s'.page_bitmap = s.page_bitmap ∧ s'.used_pages = s.used_pages) ∧
      (p ≠ 0 → ∃ start, s.reserved_pages.toNat ≤ start ∧ start + count.toNat ≤ s.managed_pages.toNat ∧
        FreeRun s.page_bitmap start count.toNat ∧
        (∀ first, s.reserved_pages.toNat ≤ first → first < start →
          ¬ FreeRun s.page_bitmap first count.toNat) ∧
        p.toNat = 4096 * start ∧ s'.used_pages = s.used_pages + count ∧
        ∀ i, test s'.page_bitmap i =
          (decide (start ≤ i ∧ i < start + count.toNat) || test s.page_bitmap i)) := by
  rcases pmm_alloc_pages_eq hm hr count with
    ⟨halloc, hnone⟩ | ⟨start, b, hcount, halloc, hlow, hend, hfree, hfirst, hbits⟩
  · refine ⟨0, s.refused, halloc, ⟨fun _ => hnone.imp id ?_, fun _ => rfl⟩, fun _ => ⟨rfl, rfl⟩,
      fun hp => absurd rfl hp⟩
    rintro hnone ⟨start, hlow, hend, hfree⟩
    exact hnone start hlow hend hfree
  · have haddress : (start.toUInt64 * 4096).toNat = 4096 * start.toNat := by
      rw [toNat_address, Nat.mul_comm]
    have hp : start.toUInt64 * 4096 ≠ 0 := by
      intro h0
      rw [h0, UInt64.toNat_zero] at haddress
      omega
    refine ⟨_, s.taken b count, halloc, ⟨fun h0 => absurd h0 hp, ?_⟩, fun h0 => absurd h0 hp, fun _ =>
      ⟨start.toNat, hlow, hend, hfree, hfirst, haddress, rfl, hbits⟩⟩
    rintro (h0 | hnone)
    · exact absurd h0 hcount
    · exact absurd ⟨start.toNat, hlow, hend, hfree⟩ hnone

/-- Four pages of which the first two are in use: two pages are found behind them. -/
theorem two_pages_of_four_are_found :
    ∃ p s', pmm_alloc_pages ⟨fun _ => 3, 4, 1, 2, 0, 0, 0, 2⟩ 2 = some (p, s') ∧ p = 8192 := by
  obtain ⟨p, s', halloc, -⟩ := the_lowest_free_run_is_taken (s := ⟨fun _ => 3, 4, 1, 2, 0, 0, 0, 2⟩)
    (by decide) (by decide) (by decide) 2
  have hrun : (pmm_alloc_pages ⟨fun _ => 3, 4, 1, 2, 0, 0, 0, 2⟩ 2).map Prod.fst = some 8192 := by
    decide
  rw [halloc, Option.map_some] at hrun
  exact ⟨p, s', halloc, Option.some.inj hrun⟩

theorem Consistent.alloc {s : Pmm} (h : Consistent s) (c : UInt32) :
    ∃ p s', pmm_alloc_pages s c = some (p, s') ∧ Consistent s' ∧
      s'.managed_pages = s.managed_pages ∧ s'.reserved_pages = s.reserved_pages := by
  rcases pmm_alloc_pages_eq h.managed_le h.reserved_le c with
    ⟨ha, _⟩ | ⟨start, b, _, ha, hl, he, hf, _, hb⟩
  · exact ⟨0, s.refused, ha, ⟨h.managed_le, h.reserved_le, h.low, h.high, h.count, h.peak⟩,
      rfl, rfl⟩
  · refine ⟨_, _, ha, ?_, rfl, rfl⟩
    have hk : ∀ page, s.Used page → (s.taken b c).Used page := by
      intro page hu
      show test b page = true
      rw [hb, hu, Bool.or_true]
    have hcr := card_marked_run he hf hb
    have hle := card_marked_le b s.managed_pages.toNat
    have hm := h.managed_le
    have hc := h.count
    have hs : (s.used_pages + c).toNat = s.used_pages.toNat + c.toNat :=
      toNat_add_of_lt (by omega)
    refine ⟨h.managed_le, h.reserved_le, fun page hp => hk page (h.low page hp),
      fun page h1 h2 => hk page (h.high page h1 h2), ?_, ?_⟩
    · show (s.used_pages + c).toNat = (marked b s.managed_pages.toNat).card
      rw [hs, hcr, hc]
    · show s.used_pages + c ≤
        if s.used_pages + c > s.peak_used_pages then s.used_pages + c else s.peak_used_pages
      grind

/-! ## One free -/

def pageOf (address : UInt64) : UInt32 := (address / 4096).toUInt32

def Refuses (s : Pmm) (address : UInt64) (count : UInt32) : Prop :=
  count = 0 ∨ address &&& (4096 - 1) ≠ 0 ∨ pageOf address < s.reserved_pages ∨
    pageOf address + count > s.managed_pages

instance (s : Pmm) (address : UInt64) (count : UInt32) : Decidable (Refuses s address count) :=
  inferInstanceAs (Decidable (_ ∨ _ ∨ _ ∨ _))

def Pmm.freed (s : Pmm) (page_bitmap : Nat → UInt8) (used_pages : UInt32) : Pmm :=
  { s with page_bitmap, used_pages, free_requests := s.free_requests + 1 }

theorem pmm_free_pages_eq (s : Pmm) (a : UInt64) (c : UInt32) :
    pmm_free_pages s a c =
      if Refuses s a c then some (s.freed s.page_bitmap s.used_pages)
      else (pmm_free_loop (pageOf a) c.toNat 0 s.page_bitmap s.used_pages).map
        fun r => s.freed r.1 r.2 := by
  by_cases h : Refuses s a c
  · rw [if_pos h]
    exact if_pos h
  · rw [if_neg h]
    refine (if_neg h).trans ?_
    show Option.bind (pmm_free_loop (pageOf a) c.toNat 0 s.page_bitmap s.used_pages) _ = _
    cases pmm_free_loop (pageOf a) c.toNat 0 s.page_bitmap s.used_pages <;> rfl

theorem Consistent.free {s : Pmm} (h : Consistent s) {a : UInt64} {c : UInt32}
    (hok : ¬ Refuses s a c) (hw : (pageOf a).toNat + c.toNat < 2 ^ 32) :
    ∃ b u, pmm_free_pages s a c = some (s.freed b u) ∧
      Consistent (s.freed b u) ∧ s.reserved_pages.toNat ≤ (pageOf a).toNat ∧
      (pageOf a).toNat + c.toNat ≤ s.managed_pages.toNat ∧
      ∀ i, test b i = (!decide ((pageOf a).toNat ≤ i ∧
        i < (pageOf a).toNat + c.toNat) && test s.page_bitmap i) := by
  obtain ⟨_, _, hs, he⟩ := by simpa only [Refuses, not_or] using hok
  have hlw := UInt32.le_iff_toNat_le.mp (UInt32.not_lt.mp hs)
  have hh := UInt32.le_iff_toNat_le.mp (UInt32.not_lt.mp he)
  rw [toNat_add_of_lt hw] at hh
  obtain ⟨b, u, hl, hc, hle, hb⟩ := pmm_free_loop_eq h.managed_le (pageOf a)
    c.toNat 0 s.page_bitmap s.used_pages (by simpa using hh) h.count
  simp only [UInt32.toNat_zero, Nat.add_zero] at hb
  have hk : ∀ page, ¬ ((pageOf a).toNat ≤ page ∧
      page < (pageOf a).toNat + c.toNat) → s.Used page → (s.freed b u).Used page := by
    intro page ho hu
    show test b page = true
    rw [hb, hu, decide_eq_false ho]
    rfl
  refine ⟨b, u, by rw [pmm_free_pages_eq, if_neg hok, hl]; rfl, ?_, hlw, hh, hb⟩
  refine ⟨h.managed_le, h.reserved_le, fun page hp => hk page ?_ (h.low page hp),
    fun page h1 h2 => hk page ?_ (h.high page h1 h2), hc, ?_⟩
  · have hp' : page < s.reserved_pages.toNat := hp
    omega
  · have h1' : s.managed_pages.toNat ≤ page := h1
    omega
  · exact UInt32.le_trans (UInt32.le_iff_toNat_le.mpr hle) h.peak

theorem pmm_free_pages_wraps {s : Pmm} {a : UInt64} {c : UInt32}
    (hok : ¬ Refuses s a c) (hw : 2 ^ 32 ≤ (pageOf a).toNat + c.toNat) :
    pmm_free_pages s a c = none := by
  have hp : 0 < c.toNat := by
    rw [Refuses, not_or] at hok
    exact Nat.pos_of_ne_zero fun h0 => hok.1 (UInt32.toNat_inj.mp h0)
  have hlt := (pageOf a).toNat_lt
  grind [pmm_free_pages_eq, pmm_free_loop_outside]

/-! ## Any run -/

inductive Call
  | alloc (count : UInt32)
  | free (address : UInt64) (count : UInt32)

def Pmm.step (s : Pmm) : Call → Option Pmm
  | .alloc count => (pmm_alloc_pages s count).map Prod.snd
  | .free address count => pmm_free_pages s address count

/-- A free clears only the pages that lie in the bytes it is given. -/
def ClearsOnly (s s' : Pmm) : Call → Prop
  | .alloc _ => True
  | .free address count => ∀ page, s.Used page → ¬ s'.Used page →
      address.toNat ≤ page * 4096 ∧ page * 4096 < address.toNat + 4096 * count.toNat

/-- The call makes no access outside the bitmap, and leaves everything in order. -/
def StepOk (s : Pmm) (c : Call) (s' : Pmm) : Prop :=
  s.step c = some s' ∧ Consistent s' ∧ s'.managed_pages = s.managed_pages ∧
    s'.reserved_pages = s.reserved_pages ∧ ClearsOnly s s' c

def RunOk : Pmm → List Call → Prop
  | _, [] => True
  | s, c :: cs => ∃ s', StepOk s c s' ∧ RunOk s' cs

/-- The free is turned away, or its page numbers do not wrap around, and its address is below
16 TiB or no page is in use where the cut-off page number points. -/
def Fits (s : Pmm) : Call → Prop
  | .alloc _ => True
  | .free address count => Refuses s address count ∨
      ((pageOf address).toNat + count.toNat < 2 ^ 32 ∧
        (address.toNat < 2 ^ 44 ∨ FreeRun s.page_bitmap (pageOf address).toNat count.toNat))

def RunFits : Pmm → List Call → Prop
  | _, [] => True
  | s, c :: cs => Fits s c ∧ ∀ s', s.step c = some s' → RunFits s' cs

theorem toNat_pageOf (a : UInt64) : (pageOf a).toNat = a.toNat / 4096 % 2 ^ 32 := by
  rw [pageOf, UInt64.toNat_toUInt32, UInt64.toNat_div]
  rfl

theorem aligned_of_not_refuses {s : Pmm} {a : UInt64} {c : UInt32}
    (h : ¬ Refuses s a c) : a.toNat % 4096 = 0 := by
  obtain ⟨_, hl, _⟩ := by simpa only [Refuses, not_or, not_not] using h
  have hn := congrArg UInt64.toNat hl
  rw [UInt64.toNat_and] at hn
  have hm : (4096 - 1 : UInt64).toNat = 2 ^ 12 - 1 := rfl
  rw [hm, Nat.and_two_pow_sub_one_eq_mod] at hn
  exact hn

theorem stepOk_free_iff {s : Pmm} (h : Consistent s) (a : UInt64) (c : UInt32) :
    (∃ s', StepOk s (.free a c) s') ↔ Fits s (.free a c) := by
  by_cases hr : Refuses s a c
  · refine ⟨fun _ => Or.inl hr, fun _ => ⟨s.freed s.page_bitmap s.used_pages, ?_, ?_, rfl, rfl, ?_⟩⟩
    · show pmm_free_pages s a c = _
      rw [pmm_free_pages_eq, if_pos hr]
    · exact ⟨h.managed_le, h.reserved_le, h.low, h.high, h.count, h.peak⟩
    · intro p h1 h2
      exact absurd h1 h2
  have ha := aligned_of_not_refuses hr
  have hpg := toNat_pageOf a
  have hm := h.managed_le
  constructor
  · rintro ⟨s', hs, _, _, _, hcl⟩
    refine Or.inr ?_
    have hw : (pageOf a).toNat + c.toNat < 2 ^ 32 := by
      by_contra hge
      have hn := pmm_free_pages_wraps hr (Nat.not_lt.mp hge)
      rw [show s.step (.free a c) = none from hn] at hs
      cases hs
    refine ⟨hw, ?_⟩
    obtain ⟨b, used, hf, _, _, hh, hbt⟩ := h.free hr hw
    have hs' : s' = s.freed b used :=
      Option.some.inj (hs.symm.trans hf)
    by_contra hbd
    rw [not_or, Nat.not_lt] at hbd
    refine hbd.2 fun i h1 h2 => ?_
    by_contra hu
    -- A p that is cleared lies below 4 GiB, the a does not.
    have hc : ¬ s'.Used i := by
      rw [hs']
      show ¬ test b i = true
      grind
    have hb : s.Used i := by simpa [Pmm.Used] using hu
    have := (hcl i hb hc).1
    omega
  · rintro (hrf | ⟨hw, hp⟩)
    · exact absurd hrf hr
    obtain ⟨b, used, hf, hcn, _, hh, hbt⟩ := h.free hr hw
    refine ⟨s.freed b used, hf, hcn, rfl, rfl, ?_⟩
    intro p hu hc
    have hin : (pageOf a).toNat ≤ p ∧ p < (pageOf a).toNat + c.toNat := by
      by_contra ho
      refine hc ?_
      show test b p = true
      rw [hbt, decide_eq_false ho, hu]
      rfl
    rcases hp with hsm | hn
    · omega
    · rw [Pmm.Used, hn p hin.1 hin.2] at hu
      cases hu

theorem stepOk_iff {s : Pmm} (h : Consistent s) (c : Call) : (∃ s', StepOk s c s') ↔ Fits s c := by
  rcases c with cn | ⟨a, cn⟩
  · obtain ⟨p, s', ha, hc, hm, hr⟩ := h.alloc cn
    refine ⟨fun _ => trivial, fun _ => ⟨s', ?_, hc, hm, hr, trivial⟩⟩
    show (pmm_alloc_pages s cn).map Prod.snd = some s'
    rw [ha]
    rfl
  · exact stepOk_free_iff h a cn

theorem runOk_iff {s : Pmm} (h : Consistent s) (cs : List Call) : RunOk s cs ↔ RunFits s cs := by
  induction cs generalizing s with
  | nil => exact Iff.rfl
  | cons c cs ih =>
    constructor
    · rintro ⟨s', hok, hr⟩
      refine ⟨(stepOk_iff h c).mp ⟨s', hok⟩, fun s'' hs => ?_⟩
      obtain rfl : s'' = s' := Option.some.inj (hs.symm.trans hok.1)
      exact (ih hok.2.1).mp hr
    · rintro ⟨hf, hr⟩
      obtain ⟨s', hok⟩ := (stepOk_iff h c).mpr hf
      exact ⟨s', hok, (ih hok.2.1).mpr (hr s' hok.1)⟩

/-- From the start on, the bitmap and the counters stay in order in every run just as long as each
free fits. -/
theorem the_bitmap_stays_in_order_iff (memory_kib kernel_end mapped_limit : UInt64)
    (calls : List Call) :
    ∃ s, pmm_init_limit memory_kib kernel_end mapped_limit = some s ∧ Consistent s ∧
      (RunOk s calls ↔ RunFits s calls) := by
  obtain ⟨s, hinit, hconsistent, _⟩ := pmm_init_limit_eq memory_kib kernel_end mapped_limit
  exact ⟨s, hinit, hconsistent, runOk_iff hconsistent calls⟩

/-- A free of an address above 16 TiB clears page 1, which another caller holds. -/
theorem a_free_clears_a_page_of_another : ∃ s s1 s2,
    pmm_init_limit 8 1 0 = some s ∧ pmm_alloc_pages s 1 = some (4096, s1) ∧
      pmm_free_pages s1 (2 ^ 44 + 4096) 1 = some s2 ∧ s1.Used 1 ∧ ¬ s2.Used 1 := by
  refine ⟨_, _, _, rfl, rfl, rfl, ?_, ?_⟩
  · decide
  · decide

end mvh.pmm
