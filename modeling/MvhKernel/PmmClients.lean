-- The callers of the page allocator: what they hold is theirs alone, as long as page 0 is
-- reserved.
import MvhKernel.PmmRuns

open bitmap

namespace mvh.pmm

/-- The allocator, and the pairs of pointer and count that its callers hold. -/
structure Client where
  pages : Pmm
  live : List (UInt64 × UInt32)

/-- A caller allocates, and keeps the pointer when it is not null, or it frees what it holds. -/
inductive Client.Step : Client → Client → Prop
  | alloc {c : Client} {count : UInt32} {p : UInt64} {s : Pmm}
      (h : pmm_alloc_pages c.pages count = some (p, s)) :
      Client.Step c ⟨s, if p = 0 then c.live else (p, count) :: c.live⟩
  | free {c : Client} {held : UInt64 × UInt32} {s : Pmm} (hheld : held ∈ c.live)
      (h : pmm_free_pages c.pages held.1 held.2 = some s) : Client.Step c ⟨s, c.live.erase held⟩

def Apart (a b : UInt64 × UInt32) : Prop :=
  a.1.toNat + 4096 * a.2.toNat ≤ b.1.toNat ∨ b.1.toNat + 4096 * b.2.toNat ≤ a.1.toNat

/-- No page is handed out twice, and each call that a caller may make comes back. -/
structure HandsOut (c : Client) : Prop where
  apart : c.live.Pairwise Apart
  inside : ∀ a ∈ c.live, c.pages.reserved_pages.toNat * 4096 ≤ a.1.toNat ∧
    a.1.toNat + 4096 * a.2.toNat ≤ c.pages.managed_pages.toNat * 4096
  total : c.pages.used_pages.toNat =
    c.pages.reserved_pages.toNat + (c.live.map fun a => a.2.toNat).sum
  allocs : ∀ count, ∃ p s, pmm_alloc_pages c.pages count = some (p, s)
  frees : ∀ a ∈ c.live, ∃ s, pmm_free_pages c.pages a.1 a.2 = some s

/-! ## What callers hold -/

/-- The pair is a run of pages in use. -/
structure Holds (s : Pmm) (a : UInt64 × UInt32) : Prop where
  aligned : a.1.toNat % 4096 = 0
  count_pos : 0 < a.2.toNat
  low : s.reserved_pages.toNat * 4096 ≤ a.1.toNat
  high : a.1.toNat + 4096 * a.2.toNat ≤ s.managed_pages.toNat * 4096
  used : ∀ page, a.1.toNat ≤ page * 4096 → page * 4096 < a.1.toNat + 4096 * a.2.toNat → s.Used page

structure Owned (c : Client) : Prop where
  consistent : Consistent c.pages
  apart : c.live.Pairwise Apart
  holds : ∀ a ∈ c.live, Holds c.pages a
  total : c.pages.used_pages.toNat =
    c.pages.reserved_pages.toNat + (c.live.map fun a => a.2.toNat).sum

theorem Holds.pageOf {s : Pmm} {a : UInt64 × UInt32} (h : Holds s a)
    (hm : s.managed_pages.toNat ≤ 1048576) :
    a.1.toNat = (pmm.pageOf a.1).toNat * 4096 ∧ ¬ Refuses s a.1 a.2 ∧
      (pmm.pageOf a.1).toNat + a.2.toNat < 2 ^ 32 := by
  obtain ⟨ha, hps, hl, hh, _⟩ := h
  have hp := toNat_pageOf a.1
  have hd : a.1.toNat / 4096 < 2 ^ 32 := by omega
  rw [Nat.mod_eq_of_lt hd] at hp
  have hs : (pmm.pageOf a.1 + a.2).toNat = (pmm.pageOf a.1).toNat + a.2.toNat :=
    toNat_add_of_lt (by omega)
  refine ⟨by omega, ?_, by omega⟩
  rintro (h0 | h0 | h0 | h0)
  · grind
  · refine h0 (UInt64.toNat_inj.mp ?_)
    have hms : (4096 - 1 : UInt64).toNat = 2 ^ 12 - 1 := rfl
    rw [UInt64.toNat_and, hms, Nat.and_two_pow_sub_one_eq_mod]
    exact ha
  · have := UInt32.lt_iff_toNat_lt.mp h0
    omega
  · have := UInt32.lt_iff_toNat_lt.mp h0
    omega

theorem Owned.handsOut {c : Client} (h : Owned c) : HandsOut c where
  apart := h.apart
  inside a ha := ⟨(h.holds a ha).low, (h.holds a ha).high⟩
  total := h.total
  allocs count := by
    obtain ⟨p, s, hal, _⟩ := h.consistent.alloc count
    exact ⟨p, s, hal⟩
  frees a ha := by
    obtain ⟨_, hok, hw⟩ := (h.holds a ha).pageOf h.consistent.managed_le
    obtain ⟨b, u, hf, _⟩ := h.consistent.free hok hw
    exact ⟨_, hf⟩

theorem Apart.symm {a b : UInt64 × UInt32} (h : Apart a b) : Apart b a := Or.symm h

theorem Holds.keep {s s' : Pmm} {a : UInt64 × UInt32} (h : Holds s a)
    (hm : s'.managed_pages = s.managed_pages) (hr : s'.reserved_pages = s.reserved_pages)
    (hu : ∀ p, a.1.toNat ≤ p * 4096 → p * 4096 < a.1.toNat + 4096 * a.2.toNat →
      s.Used p → s'.Used p) : Holds s' a where
  aligned := h.aligned
  count_pos := h.count_pos
  low := by rw [hr]; exact h.low
  high := by rw [hm]; exact h.high
  used p h1 h2 := hu p h1 h2 (h.used p h1 h2)

theorem Holds.apart {s : Pmm} {a : UInt64 × UInt32} (h : Holds s a) {st c : UInt32}
    (hps : 0 < c.toNat) (hf : FreeRun s.page_bitmap st.toNat c.toNat) :
    Apart (st.toUInt64 * 4096, c) a := by
  obtain ⟨ha, hc, _, _, hu⟩ := h
  by_contra hm
  rw [Apart, toNat_address, not_or] at hm
  simp only at hm
  -- The later one of the two first pages lies in both.
  have hp := hu (max st.toNat (a.1.toNat / 4096)) (by omega) (by omega)
  rw [Pmm.Used, hf _ (by omega) (by omega)] at hp
  cases hp

/-- Page 0 is never given out: it is reserved, or there are no pages. -/
def Guarded (s : Pmm) : Prop := s.reserved_pages ≠ 0 ∨ s.managed_pages = 0

theorem Owned.alloc {c : Client} (h : Owned c) (hr : Guarded c.pages) {cn : UInt32}
    {p : UInt64} {s : Pmm} (hal : pmm_alloc_pages c.pages cn = some (p, s)) :
    Owned ⟨s, if p = 0 then c.live else (p, cn) :: c.live⟩ ∧ Guarded s := by
  obtain ⟨p', s', ha', hc, hm, hrs⟩ := h.consistent.alloc cn
  obtain ⟨rfl, rfl⟩ := Prod.mk.inj (Option.some.inj (hal.symm.trans ha'))
  refine ⟨?_, by rw [Guarded, hm, hrs]; exact hr⟩
  rcases pmm_alloc_pages_eq h.consistent.managed_le h.consistent.reserved_le cn with
    ⟨heq, _⟩ | ⟨start, b, hcn, heq, hl, he, hf, _, hb⟩
  · obtain ⟨rfl, rfl⟩ := Prod.mk.inj (Option.some.inj (hal.symm.trans heq))
    rw [if_pos rfl]
    exact ⟨hc, h.apart,
      fun a ha => (h.holds a ha).keep hm hrs fun _ _ _ hu => hu, h.total⟩
  · obtain ⟨rfl, rfl⟩ := Prod.mk.inj (Option.some.inj (hal.symm.trans heq))
    have hp : 0 < cn.toNat := Nat.pos_of_ne_zero fun h0 => hcn (UInt32.toNat_inj.mp h0)
    have hne : start.toUInt64 * 4096 ≠ 0 := by
      rw [ne_eq, ← UInt64.toNat_inj, toNat_address, UInt64.toNat_zero]
      rcases hr with hr | hr
      · rw [ne_eq, ← UInt32.toNat_inj, UInt32.toNat_zero] at hr
        omega
      · rw [hr, UInt32.toNat_zero] at he
        omega
    rw [if_neg hne]
    refine ⟨hc, ?_, ?_, ?_⟩
    · exact List.pairwise_cons.mpr ⟨fun a ha => (h.holds a ha).apart hp hf, h.apart⟩
    · intro a ha
      rcases List.mem_cons.mp ha with rfl | ha
      · refine ⟨?_, hp, ?_, ?_, fun pg h1 h2 => ?_⟩
        · rw [toNat_address]
          omega
        · grind [toNat_address, Nat.mul_le_mul_right]
        · grind [toNat_address, Nat.mul_comm, Nat.add_mul, Nat.mul_le_mul_right]
        · rw [toNat_address] at h1 h2
          simp only at h2
          show test b pg = true
          grind
      · refine (h.holds a ha).keep hm hrs fun pg _ _ hu => ?_
        show test b pg = true
        rw [hb, hu, Bool.or_true]
    · have hcr := card_marked_run he hf hb
      have haf : (c.pages.taken b cn).used_pages.toNat =
        (marked b c.pages.managed_pages.toNat).card := hc.count
      have hbf := h.consistent.count
      have ht := h.total
      grind

theorem Owned.free {c : Client} (h : Owned c) {hl : UInt64 × UInt32} (hhl : hl ∈ c.live)
    {s : Pmm} (hs : pmm_free_pages c.pages hl.1 hl.2 = some s) :
    Owned ⟨s, c.live.erase hl⟩ ∧ (Guarded c.pages → Guarded s) := by
  have hh := h.holds hl hhl
  obtain ⟨had, hok, hw⟩ := hh.pageOf h.consistent.managed_le
  obtain ⟨b, used, hf, hc, _, hhg, hb⟩ := h.consistent.free hok hw
  obtain rfl : s = c.pages.freed b used := Option.some.inj (hs.symm.trans hf)
  have hpr := List.perm_cons_erase hhl
  have hp := (hpr.pairwise_iff Apart.symm).mp h.apart
  rw [List.pairwise_cons] at hp
  refine ⟨⟨hc, hp.2, fun a ha => ?_, ?_⟩, fun hg => hg⟩
  · refine (h.holds a (List.mem_of_mem_erase ha)).keep rfl rfl fun p h1 h2 hu => ?_
    have hap := hp.1 a ha
    rw [Apart, had] at hap
    show test b p = true
    rw [hb, hu, decide_eq_false (by omega)]
    rfl
  · -- The pages of the pair were all in use, so the count falls by as many.
    have hcl : FreeRun b (pageOf hl.1).toNat hl.2.toNat := by
      intro i h1 h2
      grind
    have hbc : ∀ i, test c.pages.page_bitmap i = (decide ((pageOf hl.1).toNat ≤ i ∧
        i < (pageOf hl.1).toNat + hl.2.toNat) || test b i) := by
      intro i
      by_cases hin : (pageOf hl.1).toNat ≤ i ∧ i < (pageOf hl.1).toNat + hl.2.toNat
      · rw [decide_eq_true hin, Bool.true_or]
        exact hh.used i (by omega) (by omega)
      grind
    have hcr := card_marked_run hhg hcl hbc
    have hsm := (hpr.map fun a => a.2.toNat).sum_eq
    rw [List.map_cons, List.sum_cons] at hsm
    have ht := h.total
    have hbf := h.consistent.count
    have haf : used.toNat = (marked b c.pages.managed_pages.toNat).card := hc.count
    show used.toNat = c.pages.reserved_pages.toNat +
      ((c.live.erase hl).map fun a => a.2.toNat).sum
    omega

theorem Owned.step {c c' : Client} (h : Owned c) (hr : Guarded c.pages)
    (hs : Client.Step c c') : Owned c' ∧ Guarded c'.pages := by
  cases hs with
  | alloc ha => exact h.alloc hr ha
  | free hh hf =>
    obtain ⟨ho, hg⟩ := h.free hh hf
    exact ⟨ho, hg hr⟩

theorem Owned.run {c c' : Client} (h : Owned c) (hr : Guarded c.pages)
    (hrn : Relation.ReflTransGen Client.Step c c') : Owned c' ∧ Guarded c'.pages := by
  induction hrn with
  | refl => exact ⟨h, hr⟩
  | tail _ hs ih => exact ih.1.step ih.2 hs

/-! ## The null page -/

theorem alloc_page_zero {s : Pmm} (h : Consistent s) (hr : s.reserved_pages = 0)
    (hm : s.managed_pages ≠ 0) (hfr : ¬ s.Used 0) :
    ∃ b, pmm_alloc_pages s 1 = some (0, s.taken b 1) := by
  have hrn : FreeRun s.page_bitmap 0 (1 : UInt32).toNat := by
    intro i _ hi
    grind [UInt32.toNat_one, Pmm.Used]
  have hp : 0 < s.managed_pages.toNat := Nat.pos_of_ne_zero fun h0 => hm (UInt32.toNat_inj.mp h0)
  have hz : s.reserved_pages.toNat = 0 := by rw [hr, UInt32.toNat_zero]
  rcases pmm_alloc_pages_eq h.managed_le h.reserved_le 1 with
    ⟨_, hn | hn⟩ | ⟨start, b, _, heq, _, _, _, hf, _⟩
  · exact absurd hn (by decide)
  · grind
  · have hs : start.toNat = 0 := by
      by_contra hne
      exact hf 0 (by omega) (by omega) hrn
    obtain rfl : start = 0 := UInt32.toNat_inj.mp hs
    exact ⟨b, heq⟩

/-- No page is handed out twice in any run of callers just when page 0 is never given out. -/
theorem no_page_is_handed_out_twice_iff (memory_kib kernel_end mapped_limit : UInt64) :
    ∃ s, pmm_init_limit memory_kib kernel_end mapped_limit = some s ∧
      ((∀ c, Relation.ReflTransGen Client.Step ⟨s, []⟩ c → HandsOut c) ↔
        (s.reserved_pages ≠ 0 ∨ s.managed_pages = 0)) := by
  obtain ⟨s, hinit, hconsistent, hused, hfree⟩ :=
    pmm_init_limit_eq memory_kib kernel_end mapped_limit
  refine ⟨s, hinit, ?_, ?_⟩
  · intro hall
    by_contra hbad
    rw [not_or, not_not] at hbad
    obtain ⟨hr, hm⟩ := hbad
    have hpos : 0 < s.managed_pages.toNat :=
      Nat.pos_of_ne_zero fun h0 => hm (UInt32.toNat_inj.mp h0)
    obtain ⟨b, halloc⟩ := alloc_page_zero hconsistent hr hm
      (hfree 0 (by rw [hr, UInt32.toNat_zero]) hpos)
    have htotal := (hall _ (Relation.ReflTransGen.single (Client.Step.alloc halloc))).total
    rw [if_pos rfl] at htotal
    have hone : (s.taken b 1).used_pages.toNat = 1 := by
      show (s.used_pages + 1).toNat = 1
      rw [hused, hr]
      rfl
    have hzero : (s.taken b 1).reserved_pages.toNat = 0 := by
      show s.reserved_pages.toNat = 0
      rw [hr, UInt32.toNat_zero]
    rw [hone, hzero] at htotal
    simp at htotal
  · intro hguarded c hrun
    have hstart : Owned ⟨s, []⟩ := by
      refine ⟨hconsistent, List.Pairwise.nil, fun a ha => absurd ha List.not_mem_nil, ?_⟩
      show s.used_pages.toNat = s.reserved_pages.toNat + 0
      rw [hused, Nat.add_zero]
    exact (hstart.run hguarded hrun).1.handsOut

/-- With the end of the kernel at 16 TiB no page is reserved. Page 0 is given out as null, and it
stays in use for nobody. -/
theorem page_zero_is_lost : ∃ s s',
    pmm_init_limit 8 (2 ^ 44) 0 = some s ∧
      Relation.ReflTransGen Client.Step ⟨s, []⟩ ⟨s', []⟩ ∧
      s'.used_pages = 1 ∧ s'.reserved_pages = 0 := by
  have halloc : ∃ s s', pmm_init_limit 8 (2 ^ 44) 0 = some s ∧
      pmm_alloc_pages s 1 = some (0, s') ∧ s'.used_pages = 1 ∧ s'.reserved_pages = 0 :=
    ⟨_, _, rfl, rfl, rfl, rfl⟩
  obtain ⟨s, s', hinit, halloc, hused, hreserved⟩ := halloc
  have hstep := Client.Step.alloc (c := ⟨s, []⟩) halloc
  rw [if_pos rfl] at hstep
  exact ⟨s, s', hinit, Relation.ReflTransGen.single hstep, hused, hreserved⟩

end mvh.pmm
