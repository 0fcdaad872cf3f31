-- The segments of `dma_build_scatter`.
import MvhKernel.Dma
import MvhKernel.Tilings
import MvhKernel.Ranges

open tilings ranges

namespace mvh.dma

/-! ## Scatter lists -/

def segmentReach (max_segment_size address : Nat) : Nat :=
  min (address + max_segment_size) ((address / 4096 + 1) * 4096)

/-- A list of segments, as starts and lengths, for the bytes from `address` on. -/
structure IsScatter (address size max_segment_size : Nat) (segments : List (Nat × Nat)) : Prop where
  nonempty : ∀ p ∈ segments, 0 < p.2
  ascending : segments.Pairwise fun p q => p.1 < q.1
  adjacent : segments.IsChain fun p q => p.1 + p.2 = q.1
  covers : ∀ x, (∃ p ∈ segments, In x p) ↔ address ≤ x ∧ x < address + size
  short : ∀ p ∈ segments, p.2 ≤ max_segment_size
  /-- No byte of a segment is in another page than its first byte. -/
  samePage : ∀ p ∈ segments, ∀ x, In x p → x / 4096 = p.1 / 4096

section
variable {address size max_segment_size : Nat} {segments : List (Nat × Nat)}

theorem lt_segmentReach (hm : 0 < max_segment_size) (a : Nat) : a < segmentReach max_segment_size a := by
  unfold segmentReach
  omega

theorem segmentReach_mono (a a' : Nat) (h : a ≤ a') :
    segmentReach max_segment_size a ≤ segmentReach max_segment_size a' := by
  unfold segmentReach
  omega

theorem isScatter_iff : IsScatter address size max_segment_size segments ↔
    Tiles address (address + size) segments ∧ Reaches (segmentReach max_segment_size) segments := by
  constructor
  · intro h
    refine ⟨tiles_of_covers h.nonempty h.ascending h.adjacent (by omega) h.covers, fun p hp => ?_⟩
    have hps := h.nonempty p hp
    have hs := h.short p hp
    have hpg := h.samePage p hp (p.1 + p.2 - 1) ⟨by omega, by omega⟩
    unfold segmentReach
    omega
  · rintro ⟨ht, hr⟩
    refine ⟨ht.nonempty, ht.ascending, ht.adjacent, ht.covers, fun p hp => ?_, fun p hp x hx => ?_⟩
    · have hrc := hr p hp
      grind [segmentReach]
    · have hrc := hr p hp
      obtain ⟨hl, hh⟩ := hx
      grind [segmentReach]

end

def greedyScatter (address size max_segment_size : Nat) : List (Nat × Nat) :=
  greedy (segmentReach max_segment_size) size address (address + size)

/-! ## The loop -/

def Segment.piece (s : Segment) : Nat × Nat := (s.physical_address.toNat, s.length.toNat)

def listed (segments : Nat → Segment) (first n : Nat) : List (Nat × Nat) :=
  (List.range n).map fun i => (segments (first + i)).piece

theorem listed_succ (segments : Nat → Segment) (first n : Nat) :
    listed segments first (n + 1) = (segments first).piece :: listed segments (first + 1) n := by
  unfold listed
  rw [List.range_succ_eq_map, List.map_cons, List.map_map]
  refine congrArg₂ _ rfl (List.map_congr_left fun i _ => ?_)
  grind

section
variable {max_segment_size capacity : UInt32}

theorem segment_length (max_segment_size : UInt32) (c size : UInt64) :
    let p := DMA_PAGE_SIZE - (c &&& (DMA_PAGE_SIZE - 1))
    let l := if size < p then size else p
    (if l > max_segment_size.toUInt64 then max_segment_size.toUInt64 else l).toNat =
      min size.toNat (segmentReach max_segment_size.toNat c.toNat - c.toNat) := by
  intro p l
  have hm : (DMA_PAGE_SIZE - 1).toNat = 2 ^ 12 - 1 := rfl
  have hp : DMA_PAGE_SIZE.toNat = 4096 := rfl
  have ho : (c &&& (DMA_PAGE_SIZE - 1)).toNat = c.toNat % 4096 := by
    rw [UInt64.toNat_and, hm, Nat.and_two_pow_sub_one_eq_mod]
  grind [segmentReach]

theorem scatterLoop_eq (hmx : max_segment_size ≠ 0) {turns : Nat} {c size : UInt64} {u : UInt32}
    (segments : Nat → Segment) (hf : c.toNat + size.toNat < 2 ^ 64) (ht : size.toNat < turns)
    (hu : u.toNat ≤ capacity.toNat) :
    let pieces := greedyScatter c.toNat size.toNat max_segment_size.toNat
    ∃ e s', scatterLoop max_segment_size capacity turns c size u segments = some (e, s') ∧
      (∀ i < u.toNat, s' i = segments i) ∧
      ((u.toNat + pieces.length ≤ capacity.toNat ∧ (∃ n, e = some n ∧ n.toNat = u.toNat + pieces.length) ∧
        listed s' u.toNat pieces.length = pieces) ∨
      (capacity.toNat < u.toNat + pieces.length ∧ e = none)) := by
  intro pieces
  induction turns generalizing c size u segments with
  | zero => omega
  | succ turns ih =>
    unfold scatterLoop
    by_cases hz : size = 0
    · have hp : pieces = [] := by
        show greedy _ size.toNat c.toNat (c.toNat + size.toNat) = []
        rw [hz]
        rfl
      rw [if_pos hz, hp]
      exact ⟨some u, segments, rfl, fun _ _ => rfl, Or.inl ⟨hu, ⟨u, rfl, rfl⟩, rfl⟩⟩
    rw [if_neg hz]
    have hl := segment_length max_segment_size c size
    dsimp only at hl ⊢
    generalize (if (if size < DMA_PAGE_SIZE - (c &&& (DMA_PAGE_SIZE - 1)) then size
      else DMA_PAGE_SIZE - (c &&& (DMA_PAGE_SIZE - 1))) > max_segment_size.toUInt64 then max_segment_size.toUInt64
      else if size < DMA_PAGE_SIZE - (c &&& (DMA_PAGE_SIZE - 1)) then size
      else DMA_PAGE_SIZE - (c &&& (DMA_PAGE_SIZE - 1))) = length at hl ⊢
    have hps : 0 < size.toNat := by grind
    have hm (a : Nat) : a < segmentReach max_segment_size.toNat a := by grind [lt_segmentReach]
    have hrc := hm c.toNat
    have hle : length.toNat ≤ size.toNat := by omega
    have hnx : (c + length).toNat = c.toNat + length.toNat := by grind
    have hlf : (size - length).toNat = size.toNat - length.toNat := by grind
    -- the first segment of the greedy list, and the rest
    have hp : pieces = (c.toNat, length.toNat) ::
        greedyScatter (c + length).toNat (size - length).toNat max_segment_size.toNat := by
      unfold greedyScatter
      rw [hnx, hlf, Nat.add_assoc, Nat.add_sub_cancel' hle]
      exact greedy_cons hm (by omega) (by omega) (by omega) (by omega)
    rw [hp, List.length_cons]
    by_cases hr : u ≥ capacity
    · rw [if_pos hr]
      grind
    rw [if_neg hr]
    have hr := UInt32.lt_iff_toNat_lt.mp (UInt32.not_le.mp hr)
    have hcp := capacity.toNat_lt
    have ho : (1 : UInt32).toNat = 1 := rfl
    have hc : (u + 1).toNat = u.toNat + 1 := by grind
    have hf' : (c + length).toNat + (size - length).toNat < 2 ^ 64 := by omega
    have ht' : (size - length).toNat < turns := by omega
    have hu' : (u + 1).toNat ≤ capacity.toNat := by omega
    obtain ⟨e, s', hlp, hk, he⟩ :=
      ih (Function.update segments u.toNat ⟨c, length.toUInt32⟩) hf' ht' hu'
    rw [hc] at hk he
    refine ⟨e, s', hlp, fun i hi => ?_, ?_⟩
    · grind
    rcases he with ⟨hfw, ⟨n, rfl, hn⟩, hls⟩ | ⟨hmn, rfl⟩
    · refine Or.inl ⟨by omega, ⟨n, rfl, by omega⟩, ?_⟩
      have hs : length.toUInt32.toNat = length.toNat := by
        grind [UInt64.toNat_toUInt32, segmentReach, Nat.mod_eq_of_lt]
      grind [listed_succ, Function.update_self, Segment.piece]
    · exact Or.inr ⟨by omega, rfl⟩

end

/-- For all arguments that pass the checks the call ends. When it returns 0, the segments are a scatter
list, the greedy one, and no scatter list is shorter. It returns -1 just when every scatter list has
more segments than there is room for, and then the count is as before. -/
theorem the_scatter_list_is_exact (address size : UInt64) (max_segment_size capacity count : UInt32)
    (segments : Nat → Segment) (turns : Nat) (hturns : size.toNat < turns) (haddress : address ≠ 0) (hsize : size ≠ 0)
    (hmax : max_segment_size ≠ 0) (hfits : size ≤ 0xFFFFFFFFFFFFFFFF - address) :
    ∃ result segments' count', dma_build_scatter turns address size max_segment_size (some segments) capacity (some count) =
        some (result, some segments', some count') ∧ (result = 0 ∨ result = -1) ∧
      (result = 0 →
        IsScatter address.toNat size.toNat max_segment_size.toNat (listed segments' 0 count'.toNat) ∧
        listed segments' 0 count'.toNat = greedyScatter address.toNat size.toNat max_segment_size.toNat ∧
        ∀ others, IsScatter address.toNat size.toNat max_segment_size.toNat others → count'.toNat ≤ others.length) ∧
      (result = -1 ↔
        ∀ others, IsScatter address.toNat size.toNat max_segment_size.toNat others → capacity.toNat < others.length) ∧
      (result = -1 → count' = count) := by
  have hmost : (0xFFFFFFFFFFFFFFFF : UInt64).toNat = 2 ^ 64 - 1 := rfl
  have hlt := address.toNat_lt
  have hnowrap : address.toNat + size.toNat < 2 ^ 64 := by
    have hle := UInt64.le_iff_toNat_le.mp hfits
    rw [UInt64.toNat_sub_of_le _ _ (UInt64.le_iff_toNat_le.mpr (by omega)), hmost] at hle
    omega
  have hreach (a : Nat) : a < segmentReach max_segment_size.toNat a :=
    lt_segmentReach (Nat.pos_of_ne_zero fun h => hmax (UInt32.toNat_inj.mp h)) a
  have hgreedy : IsScatter address.toNat size.toNat max_segment_size.toNat
      (greedyScatter address.toNat size.toNat max_segment_size.toNat) :=
    isScatter_iff.mpr ⟨greedy_tiles hreach (by omega) (le_refl _), greedy_reaches hreach _ _ _⟩
  have hleast : ∀ others, IsScatter address.toNat size.toNat max_segment_size.toNat others →
      (greedyScatter address.toNat size.toNat max_segment_size.toNat).length ≤ others.length := by
    intro others hothers
    obtain ⟨htiles, hreaches⟩ := isScatter_iff.mp hothers
    exact greedy_le segmentReach_mono htiles hreaches (le_refl _) (by omega) _
  have hnone : (0 : UInt32).toNat ≤ capacity.toNat := Nat.zero_le _
  obtain ⟨ended, segments', hloop, _, hended⟩ := scatterLoop_eq hmax segments hnowrap hturns hnone
  rw [UInt32.toNat_zero] at hended
  have hchecks : ¬ (address = 0 ∨ size = 0 ∨ max_segment_size = 0 ∨ size > 0xFFFFFFFFFFFFFFFF - address) := by
    simp only [not_or]
    exact ⟨haddress, hsize, hmax, UInt64.not_lt.mpr hfits⟩
  unfold dma_build_scatter
  dsimp only
  rw [if_neg hchecks, hloop]
  rcases hended with ⟨hfew, ⟨n, rfl, hn⟩, hlisted⟩ | ⟨hmany, rfl⟩
  · rw [Nat.zero_add] at hn hfew
    rw [← hn] at hlisted
    refine ⟨0, segments', n, rfl, Or.inl rfl, fun _ => ?_, ?_, fun h => absurd h (by decide)⟩
    · rw [hlisted, hn]
      exact ⟨hgreedy, rfl, hleast⟩
    · refine iff_of_false (by decide) fun hall => ?_
      have hless := hall _ hgreedy
      omega
  · rw [Nat.zero_add] at hmany
    refine ⟨-1, segments', count, rfl, Or.inr rfl, fun h => absurd h (by decide), ?_, fun _ => rfl⟩
    exact iff_of_true rfl fun others hothers => Nat.lt_of_lt_of_le hmany (hleast others hothers)

/-- The 8192 bytes of the self test, from the middle of a page on. -/
theorem three_pages_are_touched :
    ∃ segments count, dma_build_scatter 8193 0x1800 8192 4096 (some fun _ => ⟨0, 0⟩) 4 (some 0) =
      some (0, some segments, some count) ∧
      listed segments 0 count.toNat = [(0x1800, 0x800), (0x2000, 0x1000), (0x3000, 0x800)] := by
  obtain ⟨result, segments, count, hrun, -, hzero, -, -⟩ :=
    the_scatter_list_is_exact 0x1800 8192 4096 4 0 (fun _ => ⟨0, 0⟩) 8193 (by decide) (by decide) (by decide) (by decide)
      (by decide)
  have hresult : (dma_build_scatter 8193 0x1800 8192 4096 (some fun _ => ⟨0, 0⟩) 4 (some 0)).map (·.1) = some 0 := rfl
  rw [hrun] at hresult
  obtain rfl : result = 0 := Option.some.inj hresult
  exact ⟨segments, count, hrun, (hzero rfl).2.1⟩

end mvh.dma
