-- What `dma_alloc` promises and when it keeps the promise.
import MvhKernel.Dma
import MvhKernel.Ranges

open bitmap exact_words ranges

namespace mvh.dma

open pmm

def grain (alignment : UInt64) : Nat := max alignment.toNat 4096

def wantedPages (size alignment : UInt64) : Nat := (size.toNat + 4095) / 4096 + grain alignment / 4096 - 1

/-- The arguments pass the checks. -/
structure Asks (size alignment : UInt64) (address_bits : UInt8) (buffer : Option Buffer) : Prop where
  someBuffer : buffer ≠ none
  someSize : size ≠ 0
  low : 32 ≤ address_bits
  high : address_bits ≤ 64
  power : ∃ k, grain alignment = 2 ^ k
  small : size.toNat + 4096 < 2 ^ 64
  few : wantedPages size alignment < 2 ^ 32

def Covers (base : UInt64) (pages : UInt32) (page : Nat) : Prop :=
  base.toNat ≤ page * 4096 ∧ page * 4096 < base.toNat + pages.toNat * 4096

/-! ## The page allocator -/

/-- The limits of the page allocator, which `pmm_init_limit` sets once. -/
structure Sized (s : Pmm) : Prop where
  managed : s.managed_pages.toNat ≤ 1048576
  reserved : s.reserved_pages.toNat ≤ s.managed_pages.toNat

theorem pmm_free_loop_bits (st : UInt32) (left : Nat) (p : UInt32) (b : Nat → UInt8) (u u' : UInt32) :
    (pmm_free_loop st left p b u).map Prod.fst = (pmm_free_loop st left p b u').map Prod.fst := by
  induction left generalizing p b u u' with
  | zero => rfl
  | succ left ih =>
    unfold pmm_free_loop
    grind

theorem pageOf_address (start : UInt32) : pageOf (start.toUInt64 * 4096) = start := by
  refine UInt32.toNat_inj.mp ?_
  grind [toNat_pageOf, toNat_address, Nat.mul_div_cancel, Nat.mod_eq_of_lt]

theorem address_aligned (st : UInt32) : st.toUInt64 * 4096 &&& (4096 - 1) = 0 := by
  refine UInt64.toNat_inj.mp ?_
  have hm : (4096 - 1 : UInt64).toNat = 2 ^ 12 - 1 := rfl
  rw [UInt64.toNat_and, hm, Nat.and_two_pow_sub_one_eq_mod, toNat_address]
  exact Nat.mul_mod_left _ _

theorem address_ne_zero {st : UInt32} (hs : st ≠ 0) : st.toUInt64 * 4096 ≠ 0 := by
  intro h
  have ha := congrArg UInt64.toNat h
  grind

theorem covers_iff (st c : UInt32) (p : Nat) :
    Covers (st.toUInt64 * 4096) c p ↔ st.toNat ≤ p ∧ p < st.toNat + c.toNat := by
  unfold Covers
  rw [toNat_address]
  omega

theorem pages_are_freed {s : Pmm} (hs : Sized s) {st count : UInt32} (hcn : count ≠ 0)
    (hlw : s.reserved_pages.toNat ≤ st.toNat) (he : st.toNat + count.toNat ≤ s.managed_pages.toNat) :
    ∃ s', pmm_free_pages s (st.toUInt64 * 4096) count = some s' ∧
      ∀ page, s'.Used page ↔ s.Used page ∧ ¬ Covers (st.toUInt64 * 4096) count page := by
  have hm := hs.managed
  have hsu : (st + count).toNat = st.toNat + count.toNat := toNat_add_of_lt (by omega)
  have hok : ¬ Refuses s (st.toUInt64 * 4096) count := by
    grind [pageOf_address, address_aligned, UInt32.lt_iff_toNat_lt, Refuses]
  have hc : (UInt32.ofNat (marked s.page_bitmap s.managed_pages.toNat).card).toNat =
      (marked s.page_bitmap s.managed_pages.toNat).card := by
    grind [UInt32.toNat_ofNat', Nat.mod_eq_of_lt, card_marked_le]
  obtain ⟨b, u, hl, _, _, hb⟩ := pmm_free_loop_eq hm st count.toNat 0 s.page_bitmap _
    (by simpa using he) hc
  have hsm := pmm_free_loop_bits st count.toNat 0 s.page_bitmap s.used_pages
    (UInt32.ofNat (marked s.page_bitmap s.managed_pages.toNat).card)
  rw [hl, Option.map_some] at hsm
  obtain ⟨⟨b', u'⟩, hr, rfl⟩ := Option.map_eq_some_iff.mp hsm
  refine ⟨s.freed b' u', ?_, fun page => ?_⟩
  · rw [pmm_free_pages_eq, if_neg hok, pageOf_address, hr]
    rfl
  · rw [covers_iff]
    show test b' page = true ↔ test s.page_bitmap page = true ∧ _
    grind

/-! ## The arithmetic -/

section
variable {s : Pmm} {size alignment : UInt64} {address_bits : UInt8} {buffer : Option Buffer}

theorem grain_eq (alignment : UInt64) :
    (if alignment < DMA_PAGE_SIZE then DMA_PAGE_SIZE else alignment).toNat = grain alignment := by
  have hp : DMA_PAGE_SIZE.toNat = 4096 := rfl
  unfold grain
  split
  next h => grind
  grind

theorem power_iff {a : UInt64} (ha : 1 ≤ a.toNat) : a &&& (a - 1) = 0 ↔ ∃ k, a.toNat = 2 ^ k := by
  have hs : (a - 1).toNat = a.toNat - 1 := by grind
  rw [← UInt64.toNat_inj, UInt64.toNat_and, hs]
  exact Nat.and_sub_one_eq_zero_iff_isPowerOfTwo (by omega)

theorem align_up_eq {v a : UInt64} {k : Nat} (hk : a.toNat = 2 ^ k) (hf : v.toNat + a.toNat < 2 ^ 64) :
    ∃ al, align_up v a = pure al ∧ al.toNat = roundUp v.toNat a.toNat := by
  have hp : 0 < a.toNat := by
    rw [hk]
    exact Nat.two_pow_pos k
  have ho : (1 : UInt64).toNat = 1 := rfl
  have hs : (v + a).toNat = v.toNat + a.toNat := by
    rw [UInt64.toNat_add, Nat.mod_eq_of_lt hf]
  have hl : (v + a - 1).toNat = v.toNat + (a.toNat - 1) := by grind
  have hm : (a - 1).toNat = 2 ^ k - 1 := by grind
  refine ⟨(v + a - 1) &&& ~~~(a - 1), ?_, ?_⟩
  · unfold align_up
    rw [bind_of_eq_pure (add64 hf), bind_of_eq_pure (sub64 (by omega)), bind_of_eq_pure (sub64 (by omega))]
  · rw [toNat_and_not _ hm, hl, hk]
    rfl

theorem aboveLimit_eq (p size : UInt64) (hh : address_bits ≤ 64)
    (hf : p.toNat + size.toNat < 2 ^ 64) :
    ∃ above : Bool, aboveLimit p size address_bits = pure above ∧
      (above = true ↔ 2 ^ address_bits.toNat < p.toNat + size.toNat) := by
  unfold aboveLimit
  by_cases hl : address_bits < 64
  · have hlt : address_bits.toNat < 64 := UInt8.lt_iff_toNat_lt.mp hl
    have hp : 2 ^ address_bits.toNat < 2 ^ 64 := Nat.pow_lt_pow_right (by decide) hlt
    have hlm : ((1 : UInt64) <<< address_bits.toUInt64).toNat = 2 ^ address_bits.toNat := by
      grind [UInt64.toNat_shiftLeft, UInt8.toNat_toUInt64, Nat.mod_eq_of_lt, UInt64.toNat_one, Nat.one_shiftLeft]
    have hs : (p + size).toNat = p.toNat + size.toNat := by
      rw [UInt64.toNat_add, Nat.mod_eq_of_lt hf]
    have hn : note ((1 : UInt64) <<< address_bits.toUInt64) (2 ^ address_bits.toNat) =
        pure ((1 : UInt64) <<< address_bits.toUInt64) := by
      refine note_exact ?_
      show ((((1 : UInt64) <<< address_bits.toUInt64).toNat : Nat) : Int) = _
      rw [hlm]
      norm_cast
    refine ⟨_, by rw [if_pos hl, bind_of_eq_pure (add64 hf), bind_of_eq_pure hn], ?_⟩
    grind
  · refine ⟨false, by rw [if_neg hl], ?_⟩
    grind

theorem dma_alloc_cases (s : Pmm) (size alignment : UInt64) (address_bits : UInt8) (buffer : Option Buffer) :
    (Asks size alignment address_bits buffer ∧ ∃ a : UInt64, ∃ t : UInt32,
      a.toNat = grain alignment ∧ t.toNat = wantedPages size alignment ∧
      dma_alloc s size alignment address_bits buffer = takePages s size a address_bits t buffer) ∨
    (¬ Asks size alignment address_bits buffer ∧
      dma_alloc s size alignment address_bits buffer = pure (some (-1, buffer, s))) := by
  have ho : (1 : UInt64).toNat = 1 := rfl
  have hp : DMA_PAGE_SIZE.toNat = 4096 := rfl
  have hg := grain_eq alignment
  have hls : 4096 ≤ grain alignment := Nat.le_max_right _ _
  unfold dma_alloc
  by_cases hf : buffer.isNone ∨ size = 0 ∨ address_bits < 32 ∨ address_bits > 64
  · rw [if_pos hf]
    refine Or.inr ⟨fun h => ?_, rfl⟩
    rcases hf with hn | hz | hl | hh
    · exact h.someBuffer (Option.isNone_iff_eq_none.mp hn)
    · exact h.someSize hz
    · exact absurd h.low (UInt8.not_le.mpr hl)
    · exact absurd h.high (UInt8.not_le.mpr hh)
  rw [if_neg hf]
  simp only [not_or] at hf
  obtain ⟨hb, hsz, hl, hh⟩ := hf
  generalize (if alignment < DMA_PAGE_SIZE then DMA_PAGE_SIZE else alignment) = a at *
  have ha := a.toNat_lt
  have hms : ((0xFFFFFFFFFFFFFFFF : UInt64) - DMA_PAGE_SIZE).toNat = 2 ^ 64 - 1 - 4096 := rfl
  rw [bind_of_eq_pure (sub64 (by omega)), bind_of_eq_pure (sub64 (by decide))]
  by_cases hs : a &&& (a - 1) ≠ 0 ∨ size > 0xFFFFFFFFFFFFFFFF - DMA_PAGE_SIZE
  · rw [if_pos hs]
    refine Or.inr ⟨fun h => ?_, rfl⟩
    rcases hs with hpw | hbg
    · refine hpw ((power_iff (by omega)).mpr ?_)
      rw [hg]
      exact h.power
    · rw [gt_iff_lt, UInt64.lt_iff_toNat_lt, hms] at hbg
      have hsm := h.small
      omega
  rw [if_neg hs]
  simp only [not_or, not_not] at hs
  obtain ⟨hpw, hsm⟩ := hs
  have hsm := UInt64.le_iff_toNat_le.mp (UInt64.not_lt.mp hsm)
  rw [hms] at hsm
  have hsu : (size + DMA_PAGE_SIZE).toNat = size.toNat + 4096 := by grind
  have hr : (size + DMA_PAGE_SIZE - 1).toNat = size.toNat + 4095 := by grind
  have hpg : ((size + DMA_PAGE_SIZE - 1) / DMA_PAGE_SIZE).toNat = (size.toNat + 4095) / 4096 := by
    rw [UInt64.toNat_div, hr, hp]
  have he : (a / DMA_PAGE_SIZE).toNat = grain alignment / 4096 := by
    rw [UInt64.toNat_div, hg, hp]
  have ht : ((size + DMA_PAGE_SIZE - 1) / DMA_PAGE_SIZE + a / DMA_PAGE_SIZE).toNat =
      (size.toNat + 4095) / 4096 + grain alignment / 4096 := by grind
  rw [bind_of_eq_pure (add64 (by omega)), bind_of_eq_pure (sub64 (by omega))]
  dsimp only
  rw [bind_of_eq_pure (add64 (by omega)), bind_of_eq_pure (sub64 (by omega))]
  have hw : ((size + DMA_PAGE_SIZE - 1) / DMA_PAGE_SIZE + a / DMA_PAGE_SIZE - 1).toNat =
      wantedPages size alignment := by
    rw [UInt64.toNat_sub_of_le _ _ (UInt64.le_iff_toNat_le.mpr (by omega)), ht, ho]
    rfl
  generalize (size + DMA_PAGE_SIZE - 1) / DMA_PAGE_SIZE + a / DMA_PAGE_SIZE - 1 = t at *
  have hmx : (0xFFFFFFFF : UInt64).toNat = 2 ^ 32 - 1 := rfl
  by_cases hm : t > 0xFFFFFFFF
  · rw [if_pos hm]
    rw [gt_iff_lt, UInt64.lt_iff_toNat_lt, hmx, hw] at hm
    refine Or.inr ⟨fun h => ?_, rfl⟩
    have hfw := h.few
    omega
  · rw [if_neg hm]
    rw [gt_iff_lt, UInt64.lt_iff_toNat_lt, hmx, hw] at hm
    refine Or.inl ⟨⟨?_, hsz, UInt8.not_lt.mp hl, UInt8.not_lt.mp hh, ?_, by omega, by omega⟩,
      a, t.toUInt32, hg, ?_, rfl⟩
    · grind
    · grind [power_iff]
    grind

end

/-! ## The contract -/

/-- What a caller has when `dma_alloc` returns 0. -/
structure Granted (s : Pmm) (size alignment : UInt64) (address_bits : UInt8) (b : Buffer) (s' : Pmm) : Prop where
  aligned : grain alignment ∣ b.physical_address.toNat
  obtained : pmm_alloc_pages s b.allocation_pages = some (b.allocation_base, s')
  taken : ∀ page, s'.Used page ↔ s.Used page ∨ Covers b.allocation_base b.allocation_pages page
  start : b.allocation_base.toNat ≤ b.physical_address.toNat
  inside : b.physical_address.toNat + size.toNat ≤ b.allocation_base.toNat + b.allocation_pages.toNat * 4096
  below : b.physical_address.toNat + size.toNat ≤ 2 ^ address_bits.toNat
  /-- At any later time a free gives back these pages, and a second one does nothing. -/
  freed : ∀ t : Pmm, t.managed_pages = s.managed_pages → t.reserved_pages = s.reserved_pages →
    ∃ b' t', dma_free t (some b) = some (some b', t') ∧
      (∀ page, t'.Used page ↔ t.Used page ∧ ¬ Covers b.allocation_base b.allocation_pages page) ∧
      ∀ u : Pmm, dma_free u (some b') = some (some b', u)

/-- A call keeps the contract: no step wraps around, it ends, it grants what it should, or it has taken
no page. -/
def KeepsContract (s : Pmm) (size alignment : UInt64) (address_bits : UInt8) (buffer : Option Buffer) : Prop :=
  (dma_alloc s size alignment address_bits buffer).exact = true ∧
  ∃ result buffer' s', (dma_alloc s size alignment address_bits buffer).value = some (result, buffer', s') ∧
    ((result = 0 ∧ ∃ b, buffer' = some b ∧ Granted s size alignment address_bits b s') ∨
      (result = -1 ∧ ∀ page, s'.Used page ↔ s.Used page))

/-- The pages that the call asks for are free from page 0 on, and page 0 is not reserved. -/
structure StartsAtZero (s : Pmm) (size alignment : UInt64) : Prop where
  reserved : s.reserved_pages = 0
  room : wantedPages size alignment ≤ s.managed_pages.toNat
  free : FreeRun s.page_bitmap 0 (wantedPages size alignment)

section
variable {s : Pmm} {size alignment : UInt64} {address_bits : UInt8} {buffer : Option Buffer}

theorem aligned_fits {b p : Nat} (hs : size.toNat ≤ p * 4096) (hb : 4096 ∣ b)
    (hg : 4096 ∣ grain alignment) :
    roundUp b (grain alignment) + size.toNat ≤ b + (p + grain alignment / 4096 - 1) * 4096 := by
  have hl : 4096 ≤ grain alignment := Nat.le_max_right _ _
  have hle := roundUp_le b (grain alignment)
  have hd : 4096 ∣ roundUp b (grain alignment) := Dvd.dvd.mul_left hg _
  omega

theorem dvd_grain {alignment : UInt64} (h : ∃ k, grain alignment = 2 ^ k) : 4096 ∣ grain alignment := by
  obtain ⟨k, hk⟩ := h
  have hl : 4096 ≤ grain alignment := Nat.le_max_right _ _
  have hp : 2 ^ 12 ≤ 2 ^ k := by
    rw [← hk]
    exact hl
  rw [hk]
  exact pow_dvd_pow 2 ((Nat.pow_le_pow_iff_right (by decide)).mp hp)

theorem buffer_is_freed (hs : Sized s) {st c : UInt32} (hc : c ≠ 0) (hst : st ≠ 0)
    (hl : s.reserved_pages.toNat ≤ st.toNat) (he : st.toNat + c.toNat ≤ s.managed_pages.toNat)
    {b : Buffer} (hb : b.allocation_base = st.toUInt64 * 4096) (hp : b.allocation_pages = c) :
    ∃ b' s', dma_free s (some b) = some (some b', s') ∧
      (∀ p, s'.Used p ↔ s.Used p ∧ ¬ Covers (st.toUInt64 * 4096) c p) ∧
      ∀ u : Pmm, dma_free u (some b') = some (some b', u) := by
  have hz := address_ne_zero hst
  obtain ⟨s', hf, hu⟩ := pages_are_freed hs hc hl he
  refine ⟨{ b with virtual_address := 0, physical_address := 0, size := 0, allocation_base := 0, allocation_pages := 0 },
    s', ?_, hu, fun u => ?_⟩
  · show (if b.allocation_base = 0 ∨ b.allocation_pages = 0 then _ else _) = _
    grind
  · rfl

theorem used_taken {b : Nat → UInt8} {st c : UInt32}
    (hb : ∀ i, test b i = (decide (st.toNat ≤ i ∧ i < st.toNat + c.toNat) || test s.page_bitmap i))
    (page : Nat) : (s.taken b c).Used page ↔ s.Used page ∨ Covers (st.toUInt64 * 4096) c page := by
  rw [covers_iff]
  show test b page = true ↔ test s.page_bitmap page = true ∨ _
  grind

theorem taken_pages_keep (hs : Sized s) (has : Asks size alignment address_bits buffer) {a : UInt64}
    {st tt : UInt32} {b : Nat → UInt8} (ha : a.toNat = grain alignment)
    (ht : tt.toNat = wantedPages size alignment) (hst : st ≠ 0) (hc : tt ≠ 0)
    (hal : pmm_alloc_pages s tt = some (st.toUInt64 * 4096, s.taken b tt))
    (hl : s.reserved_pages.toNat ≤ st.toNat) (he : st.toNat + tt.toNat ≤ s.managed_pages.toNat)
    (hfr : FreeRun s.page_bitmap st.toNat tt.toNat)
    (hb : ∀ i, test b i = (decide (st.toNat ≤ i ∧ i < st.toNat + tt.toNat) || test s.page_bitmap i)) :
    ∃ r b' s', takePages s size a address_bits tt buffer = pure (some (r, b', s')) ∧
      ((r = 0 ∧ ∃ b, b' = some b ∧ Granted s size alignment address_bits b s') ∨
        (r = -1 ∧ ∀ pg, s'.Used pg ↔ s.Used pg)) := by
  have hmn := hs.managed
  have hls : 4096 ≤ grain alignment := Nat.le_max_right _ _
  have hsi : 0 < size.toNat := Nat.pos_of_ne_zero fun h => has.someSize (UInt64.toNat_inj.mp h)
  have hz := address_ne_zero hst
  have hft : roundUp (st.toNat * 4096) (grain alignment) + size.toNat ≤
      st.toNat * 4096 + wantedPages size alignment * 4096 :=
    aligned_fits (by omega) (Nat.dvd_mul_left _ _) (dvd_grain has.power)
  have hw : (size.toNat + 4095) / 4096 + grain alignment / 4096 - 1 = tt.toNat := ht.symm
  rw [← ht] at hft
  have hg := dvd_grain has.power
  obtain ⟨k, hk⟩ := has.power
  have hsm : (st.toUInt64 * 4096).toNat + a.toNat < 2 ^ 64 := by
    rw [toNat_address, ha]
    omega
  obtain ⟨p, hag, hp⟩ := align_up_eq (ha.trans hk) hsm
  rw [toNat_address, ha] at hp
  obtain ⟨above, hab, hlm⟩ := aboveLimit_eq p size has.high (by omega)
  have htk : takePages s size a address_bits tt buffer =
      if above then pure ((pmm_free_pages (s.taken b tt) (st.toUInt64 * 4096) tt).map fun s => (-1, buffer, s))
      else pure (some (0, some ⟨p, p, size, st.toUInt64 * 4096, tt, address_bits, 1⟩,
        s.taken b tt)) := by grind [bind_of_eq_pure, takePages]
  rw [htk]
  have hu := used_taken hb
  have hsz : Sized (s.taken b tt) := ⟨hs.managed, hs.reserved⟩
  cases above with
  | true =>
    obtain ⟨s', hf, hbc⟩ := pages_are_freed hsz hc hl he
    refine ⟨-1, buffer, s', by rw [if_pos rfl, hf]; rfl, Or.inr ⟨rfl, fun pg => ?_⟩⟩
    rw [hbc pg, hu pg]
    constructor
    · grind
    · intro hin
      refine ⟨Or.inl hin, fun hcv => ?_⟩
      obtain ⟨h1, h2⟩ := (covers_iff st tt pg).mp hcv
      exact absurd hin (by rw [Pmm.Used, hfr pg h1 h2]; decide)
  | false =>
    refine ⟨0, _, s.taken b tt, by rw [if_neg Bool.false_ne_true], Or.inl ⟨rfl, _, rfl, ?_⟩⟩
    refine ⟨?_, hal, hu, ?_, ?_, ?_, fun t hm hr => ?_⟩
    · show grain alignment ∣ p.toNat
      rw [hp]
      exact Nat.dvd_mul_left _ _
    · grind [toNat_address, le_roundUp]
    · grind [toNat_address]
    · grind
    · refine buffer_is_freed ⟨?_, ?_⟩ hc hst ?_ ?_ rfl rfl
      · rw [hm]
        exact hs.managed
      · rw [hm, hr]
        exact hs.reserved
      · rw [hr]
        exact hl
      · rw [hm]
        exact he

end

/-- A call of `dma_alloc` keeps its contract, but for the one case that it gets its pages from page 0
on. -/
theorem dma_alloc_keeps_its_contract_iff {s : Pmm} (hs : Sized s) (size alignment : UInt64) (address_bits : UInt8)
    (buffer : Option Buffer) :
    KeepsContract s size alignment address_bits buffer ↔
      ¬ (Asks size alignment address_bits buffer ∧ StartsAtZero s size alignment) := by
  unfold KeepsContract
  rcases dma_alloc_cases s size alignment address_bits buffer with
    ⟨hasks, aligned, total, haligned, htotal, hrun⟩ | ⟨hrefused, hrun⟩
  swap
  · rw [hrun]
    exact iff_of_true ⟨rfl, -1, buffer, s, rfl, Or.inr ⟨rfl, fun _ => Iff.rfl⟩⟩ fun h => hrefused h.1
  rw [hrun]
  rcases pmm_alloc_pages_eq hs.managed hs.reserved total with
    ⟨halloc, hnone⟩ | ⟨start, b, hcount, halloc, hlow, hend, hfree, hfirst, hbits⟩
  · -- there are no such pages
    have htake : takePages s size aligned address_bits total buffer = pure (some (-1, buffer, s.refused)) := by
      unfold takePages
      rw [halloc]
      exact if_pos rfl
    rw [htake]
    refine iff_of_true ⟨rfl, -1, buffer, s.refused, rfl, Or.inr ⟨rfl, fun _ => Iff.rfl⟩⟩ ?_
    rintro ⟨_, hzero⟩
    rcases hnone with hnone | hnone
    · have hpos : 0 < size.toNat := Nat.pos_of_ne_zero fun h => hasks.someSize (UInt64.toNat_inj.mp h)
      have hleast : 4096 ≤ grain alignment := Nat.le_max_right _ _
      rw [hnone, wantedPages, UInt32.toNat_zero] at htotal
      omega
    · refine hnone 0 ?_ ?_ ?_
      · rw [hzero.reserved]
        exact le_refl _
      · rw [htotal, Nat.zero_add]
        exact hzero.room
      · rw [htotal]
        exact hzero.free
  by_cases hstart : start = 0
  · -- page 0 is the first one, and its address is taken for null
    subst hstart
    have htake : takePages s size aligned address_bits total buffer = pure (some (-1, buffer, s.taken b total)) := by
      unfold takePages
      rw [halloc]
      exact if_pos rfl
    rw [htake]
    have hpos : 0 < total.toNat := Nat.pos_of_ne_zero fun h => hcount (UInt32.toNat_inj.mp h)
    refine iff_of_false ?_ (not_not.mpr ⟨hasks, ?_, ?_, ?_⟩)
    · rintro ⟨_, result, buffer', s', hvalue, hkept⟩
      obtain ⟨rfl, rfl, rfl⟩ : -1 = result ∧ buffer = buffer' ∧ s.taken b total = s' := by
        simpa using Option.some.inj hvalue
      rcases hkept with ⟨hzero, _⟩ | ⟨_, hsame⟩
      · exact absurd hzero (by decide)
      · have hused := (used_taken hbits 0).mpr (Or.inr ((covers_iff 0 total 0).mpr ⟨le_refl _, by simpa using hpos⟩))
        have hbefore := (hsame 0).mp hused
        exact absurd hbefore (by rw [Pmm.Used, hfree 0 (le_refl _) (by simpa using hpos)]; decide)
    · refine UInt32.toNat_inj.mp ?_
      rw [UInt32.toNat_zero] at hlow
      rw [UInt32.toNat_zero]
      omega
    · rw [UInt32.toNat_zero, Nat.zero_add, htotal] at hend
      exact hend
    · rw [UInt32.toNat_zero, htotal] at hfree
      exact hfree
  · obtain ⟨result, buffer', s', htake, hkept⟩ :=
      taken_pages_keep hs hasks haligned htotal hstart hcount halloc hlow hend hfree hbits
    rw [htake]
    refine iff_of_true ⟨rfl, result, buffer', s', rfl, hkept⟩ ?_
    rintro ⟨_, hzero⟩
    have hpos : 0 < start.toNat := Nat.pos_of_ne_zero fun h => hstart (UInt32.toNat_inj.mp h)
    refine hfirst 0 ?_ hpos ?_
    · rw [hzero.reserved]
      exact le_refl _
    · rw [htotal]
      exact hzero.free

def noBuffer : Buffer := ⟨0, 0, 0, 0, 0, 0, 0⟩

/-- One page of the two that there are is reserved, and a buffer gets the other one. -/
theorem a_buffer_is_granted : ∃ s, pmm_init_limit 8 1 0 = some s ∧ KeepsContract s 4096 0 32 (some noBuffer) := by
  have hinit : ∃ s, pmm_init_limit 8 1 0 = some s ∧ Sized s ∧ s.reserved_pages = 1 :=
    ⟨_, rfl, ⟨by decide, by decide⟩, rfl⟩
  obtain ⟨s, hinit, hsized, hreserved⟩ := hinit
  refine ⟨s, hinit, (dma_alloc_keeps_its_contract_iff hsized 4096 0 32 (some noBuffer)).mpr fun h => ?_⟩
  have hzero := h.2.reserved
  rw [hreserved] at hzero
  exact absurd hzero (by decide)

/-- With the end of the kernel at 16 TiB no page is reserved. The call returns -1, and page 0 stays in
use. -/
theorem a_buffer_at_zero_is_lost : ∃ s s', pmm_init_limit 8 (2 ^ 44) 0 = some s ∧
    (dma_alloc s 4096 0 32 (some noBuffer)).value = some (-1, some noBuffer, s') ∧
    ¬ s.Used 0 ∧ s'.Used 0 :=
  ⟨_, _, rfl, rfl, by decide, by decide⟩

end mvh.dma
