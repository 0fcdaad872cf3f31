-- What the calls of the heap do: an allocation takes the first free block that is large
-- enough, and a release merges the block with its free neighbours.
import MvhKernel.HeapPayloads
import MvhKernel.Masks

open flat_memory masks

namespace mvh.heap

/-! ## The size that is needed -/

theorem toNat_align16 (v : UInt64) :
    (align16 v).toNat = (v.toNat + 15) % 2 ^ 32 / 16 * 16 := by
  have hm : (0xFFFFFFF0 : UInt64).toNat = 2 ^ 32 - 2 ^ 4 := rfl
  have h15 : (15 : UInt64).toNat = 15 := rfl
  unfold align16
  rw [UInt64.toNat_and, hm, nat_and_mask _ (by omega), UInt64.toNat_add, h15]
  omega

theorem needed_bounds {asked : UInt64} (h : asked.toNat < 2 ^ 32 - 24) :
    asked.toNat + 8 ≤ (align16 (asked + 8)).toNat ∧ (align16 (asked + 8)).toNat < 2 ^ 32 ∧
      8 ∣ (align16 (asked + 8)).toNat := by
  have h8 : (8 : UInt64).toNat = 8 := rfl
  rw [toNat_align16, UInt64.toNat_add, h8]
  omega

/-! ## The search -/

def Suits (needed : Nat) (b : Block) : Prop := b.used = none ∧ needed ≤ b.size

instance (needed : Nat) (b : Block) : Decidable (Suits needed b) := inferInstanceAs (Decidable (_ ∧ _))

theorem kmalloc_loop_spec {h : Heap} (asked needed : UInt64) {bf a fuel : Nat} {bs : List Block}
    (hsg : Seg h.memory bf a bs 0) (ha : 0 < a) (hf : bs.length < fuel) :
    (kmalloc_loop h asked needed fuel (headOr a bs 0) =
        some ({ h with heap_failures := h.heap_failures + 1 }, 0) ∧
      ∀ b ∈ bs, ¬ Suits needed.toNat b) ∨
    ∃ xs n ys, bs = xs ++ ⟨n, none⟩ :: ys ∧ (∀ b ∈ xs, ¬ Suits needed.toNat b) ∧ needed.toNat ≤ n ∧
      kmalloc_loop h asked needed fuel (headOr a bs 0) =
        some (take_block h (a + span xs) asked needed) := by
  induction bs generalizing bf a fuel with
  | nil =>
    obtain ⟨fuel, rfl⟩ : ∃ k, fuel = k + 1 := ⟨fuel - 1, by simp at hf; omega⟩
    exact Or.inl ⟨rfl, by simp⟩
  | cons b bs ih =>
    obtain ⟨fuel, rfl⟩ : ∃ k, fuel = k + 1 := ⟨fuel - 1, by simp at hf; omega⟩
    obtain ⟨hh, ht⟩ := hsg
    have hfn : (isFree h.memory a ≠ 0 ∧ size h.memory a ≥ needed) ↔ Suits needed.toNat b := by
      simp [hh.free, ge_iff_le, UInt64.le_iff_toNat_le, hh.size, Suits]
    have hst : kmalloc_loop h asked needed (fuel + 1) (headOr a (b :: bs) 0) =
        if Suits needed.toNat b then some (take_block h a asked needed)
        else kmalloc_loop h asked needed fuel (headOr (a + 40 + b.size) bs 0) := by
      rw [headOr_cons, kmalloc_loop, if_neg (by omega), if_neg (not_not.mpr hh.magic), hh.next]
      exact if_congr hfn rfl rfl
    rw [hst]
    by_cases hs : Suits needed.toNat b
    · rw [if_pos hs]
      obtain ⟨n, u⟩ := b
      obtain ⟨rfl, hn⟩ := hs
      exact Or.inr ⟨[], n, bs, rfl, by simp, hn, rfl⟩
    · rw [if_neg hs]
      have hl : bs.length < fuel := by grind
      rcases ih ht (by omega) hl with ⟨heq, hnn⟩ | ⟨xs, n, ys, rfl, hxs, hn, heq⟩
      · grind
      · refine Or.inr ⟨b :: xs, n, ys, rfl, fun c hc => ?_, hn, ?_⟩
        · grind
        grind [span_cons]

theorem length_le_span (bs : List Block) : 40 * bs.length ≤ span bs := by
  induction bs with
  | nil => simp
  | cons b bs ih =>
    rw [span_cons, List.length_cons]
    omega

theorem Listed.length_lt {h : Heap} {bs : List Block} (hl : Listed h bs) : bs.length < 65536 := by
  have hr : REGION = 1048576 := rfl
  have hln := length_le_span bs
  have hrm := hl.room
  omega

theorem Holds.listed {h : Heap} {bs : List Block} (hh : Holds h bs) : Listed h bs where
  first := hh.first
  nonempty hnil := by
    have hw := hh.whole
    rw [hnil] at hw
    cases hw
  seg := hh.seg
  room := hh.whole.le

theorem Holds.length_lt {h : Heap} {bs : List Block} (hh : Holds h bs) : bs.length < 65536 :=
  hh.listed.length_lt

theorem toNat_needed (asked : UInt64) :
    (align16 (asked + 8)).toNat = (asked.toNat + 23) % 2 ^ 32 / 16 * 16 := by
  have h8 : (8 : UInt64).toNat = 8 := rfl
  rw [toNat_align16, UInt64.toNat_add, h8]
  omega

theorem Listed.kmalloc_cases {h : Heap} {bs : List Block} (hl : Listed h bs) {asked : UInt64}
    (hasked : asked ≠ 0) :
    (2 ^ 64 - 24 < asked.toNat ∧
      kmalloc h asked = some ({ h with heap_failures := h.heap_failures + 1 }, 0)) ∨
    (asked.toNat ≤ 2 ^ 64 - 24 ∧ align16 (asked + 8) = 0 ∧ kmalloc h asked = some (h, 0)) ∨
    (asked.toNat ≤ 2 ^ 64 - 24 ∧ align16 (asked + 8) ≠ 0 ∧
      (∀ b ∈ bs, ¬ Suits (align16 (asked + 8)).toNat b) ∧
      kmalloc h asked = some ({ h with heap_failures := h.heap_failures + 1 }, 0)) ∨
    (asked.toNat ≤ 2 ^ 64 - 24 ∧ align16 (asked + 8) ≠ 0 ∧
      ∃ xs n ys, bs = xs ++ ⟨n, none⟩ :: ys ∧ (∀ b ∈ xs, ¬ Suits (align16 (asked + 8)).toNat b) ∧
        (align16 (asked + 8)).toNat ≤ n ∧
        kmalloc h asked = some (take_block h (h.heap_first + span xs) asked (align16 (asked + 8)))) := by
  have hlarge : asked > 0xFFFFFFFFFFFFFFFF - 8 - 15 ↔ 2 ^ 64 - 24 < asked.toNat := by grind
  have hfirst := hl.first
  unfold kmalloc
  rw [if_neg hasked]
  by_cases htoo : 2 ^ 64 - 24 < asked.toNat
  · grind
  right
  rw [if_neg (mt hlarge.mp htoo)]
  simp only
  by_cases hzero : align16 (asked + 8) = 0
  · grind
  right
  rw [if_neg (by rintro (h0 | h0); exacts [hzero h0, by omega])]
  have hloop := kmalloc_loop_spec asked (align16 (asked + 8)) hl.seg hl.first
    (by have := hl.length_lt; unfold WALK; omega : bs.length < WALK)
  rw [headOr_of_ne hl.nonempty] at hloop
  grind

/-! ## Allocation -/

section
variable {n asked needed : Nat} {xs ys : List Block}

theorem carve_cons (n asked needed : Nat) :
    ∃ c rest, carve n asked needed = c :: rest ∧ c.used = some asked ∧ ∀ b ∈ rest, b.used = none := by
  unfold carve
  split
  · exact ⟨_, _, rfl, rfl, by simp⟩
  · exact ⟨_, _, rfl, rfl, by simp⟩

theorem carve_fits (hl : 16 ≤ needed) (ha : asked + 8 ≤ needed) (hn : needed ≤ n) :
    ∀ b ∈ carve n asked needed, b.Fits := by
  unfold carve
  split
  · simp only [List.mem_cons, List.not_mem_nil, or_false, forall_eq_or_imp, forall_eq]
    refine ⟨⟨hl, fun k hk => ?_⟩, freeFits (by omega)⟩
    cases hk
    exact ha
  · simp only [List.mem_singleton, forall_eq]
    refine ⟨(by omega : 16 ≤ n), fun k hk => ?_⟩
    grind

theorem carve_words (hn : 8 ∣ n) (hnd : 8 ∣ needed) : ∀ b ∈ carve n asked needed, 8 ∣ b.size := by
  unfold carve
  grind

theorem apart_used {b c : Block} (h : (xs ++ [b] ++ ys).IsChain NotBothFree) (hc : c.used ≠ none) :
    (xs ++ [c] ++ ys).IsChain NotBothFree := by
  simp only [List.isChain_append] at h ⊢
  obtain ⟨⟨hxs, -, -⟩, hys, -⟩ := h
  refine ⟨⟨hxs, List.isChain_singleton c, ?_⟩, hys, ?_⟩
  · rintro d - e he
    cases he
    exact Or.inr hc
  · rintro d hd e -
    rw [List.getLast?_concat] at hd
    cases hd
    exact Or.inl hc

theorem carve_apart (h : (xs ++ [(⟨n, none⟩ : Block)] ++ ys).IsChain NotBothFree) :
    (xs ++ carve n asked needed ++ ys).IsChain NotBothFree := by
  unfold carve
  split
  · simp only [List.isChain_append, List.getLast?_append, List.getLast?_singleton, Option.mem_def,
      List.head?_cons] at h ⊢
    obtain ⟨⟨hxs, -, -⟩, hys, hr⟩ := h
    refine ⟨⟨hxs, ?_, ?_⟩, hys, ?_⟩
    · exact List.isChain_pair.mpr (Or.inl (by simp))
    · rintro b - c hc
      cases hc
      exact Or.inr (by simp)
    · rintro b hb c hc
      cases hb
      exact Or.inr ((hr _ rfl c hc).resolve_left (by simp))
  · exact apart_used h (by simp)

theorem payloads_carve (a q : Nat) :
    payloads a (carve n asked needed) q = if q = a + 40 then some asked else none := by
  obtain ⟨c, rest, hcr, hc, hr⟩ := carve_cons n asked needed
  rw [hcr, payloads, payloads_free hr, hc, Option.or_none]

theorem used_carve (n asked needed : Nat) :
    ∃ c rest, carve n asked needed = c :: rest ∧ usedBytes (carve n asked needed) = c.size ∧
      usedCount (carve n asked needed) = 1 := by
  unfold carve
  split
  · simp [usedBytes, usedCount]
  simp [usedBytes, usedCount]

end

theorem take_block_spec {h : Heap} {asked needed : UInt64} {n : Nat} {xs ys : List Block}
    (hh : Holds h (xs ++ ⟨n, none⟩ :: ys)) (has : asked.toNat + 8 ≤ needed.toNat)
    (hlw : 16 ≤ needed.toNat) (hhg : needed.toNat < 2 ^ 32) (hwr : 8 ∣ needed.toNat)
    (hn : needed.toNat ≤ n) :
    let p := h.heap_first + span xs + 40
    let live := payloads h.heap_first (xs ++ ⟨n, none⟩ :: ys)
    ∃ h', take_block h (h.heap_first + span xs) asked needed = (h', p) ∧
      h'.heap_first = h.heap_first ∧ Live h' (Function.update live p (some asked.toNat)) ∧
      Kept h.memory h'.memory live := by
  intro p live
  have hr : REGION = 1048576 := rfl
  have hrm := hh.room
  have hw := hh.whole
  simp only [span_append, span_cons] at hw
  have he : Edit h.memory (taken h.memory (h.heap_first + span xs) asked needed) h.heap_first xs
      [⟨n, none⟩] (carve n asked.toNat needed.toNat) ys :=
    take_edit hh.seg hh.fits (by omega) hlw hhg
  have hl : xs ++ ⟨n, none⟩ :: ys = xs ++ [⟨n, none⟩] ++ ys := by simp
  have hlv : live = payloads h.heap_first (xs ++ [⟨n, none⟩] ++ ys) := by rw [← hl]
  rw [hl] at hh
  have hold (q : Nat) : payloads (h.heap_first + span xs) [⟨n, none⟩] q = none :=
    payloads_free (by simp)
  -- the size that is added to the counter is that of the first of the new blocks
  obtain ⟨c, rest, hc, hby, hcn⟩ := used_carve n asked.toNat needed.toNat
  generalize hm : taken h.memory (h.heap_first + span xs) asked needed = m at he
  have hsz : (size m (h.heap_first + span xs)).toNat = c.size := by
    have hs := he.seg
    rw [hc, List.append_assoc, List.cons_append] at hs
    exact hs.middle.size
  refine ⟨⟨m, h.heap_first, h.heap_used + size m (h.heap_first + span xs), h.heap_allocations + 1,
    h.heap_failures, h.heap_invalid_frees⟩, by rw [← hm]; rfl, rfl,
    ⟨xs ++ carve n asked.toNat needed.toNat ++ ys, hh.edit he (carve_fits hlw has hn) (carve_words (hh.words ⟨n, none⟩ (by simp)) hwr)
    (carve_apart hh.apart) ?_ ?_, ?_⟩, ?_⟩
  · have hle := usedBytes_le (xs ++ carve n asked.toNat needed.toNat ++ ys)
    have hu := hh.used
    simp only [usedBytes_append, span_append, hby, he.bytes, span_cons, span_nil] at hle hu ⊢
    grind [usedBytes]
  · have hle := usedCount_le (xs ++ carve n asked.toNat needed.toNat ++ ys)
    have ha := hh.allocations
    simp only [usedCount_append, span_append, hcn, he.bytes, span_cons, span_nil] at hle ha ⊢
    grind [usedCount]
  · rw [hlv]
    show _ = payloads h.heap_first _
    symm
    refine payloads_edit he.bytes (fun b hb => hh.fits b (by simp [hb]))
      (fun b hb => hh.fits b (by simp [hb])) (fun q => ?_) (by omega) ?_
    · rw [payloads_carve, hold]
    grind [span_cons, span_nil]
  · intro q k hq i hi
    rw [hlv] at hq
    exact he.kept hh.fits (hold q) hq hi

theorem kmalloc_spec {h : Heap} {live : Nat → Option Nat} (hl : Live h live) {asked : UInt64}
    (ha : asked.toNat < 2 ^ 32 - 24) :
    ∃ h' p, kmalloc h asked = some (h', p) ∧ h'.heap_first = h.heap_first ∧
      ((p = 0 ∧ h'.memory = h.memory ∧ Live h' live) ∨
        (p ≠ 0 ∧ live p = none ∧ Live h' (Function.update live p (some asked.toNat)) ∧
          Kept h.memory h'.memory live)) := by
  obtain ⟨bs, hh, rfl⟩ := hl
  obtain ⟨hnd, hhg, hw⟩ := needed_bounds ha
  have hf : Live { h with heap_failures := h.heap_failures + 1 } (payloads h.heap_first bs) :=
    ⟨bs, ⟨hh.first, hh.room, hh.seg, hh.whole, hh.fits, hh.words, hh.apart, hh.used, hh.allocations⟩, rfl⟩
  by_cases hz : asked = 0
  · refine ⟨h, 0, ?_, rfl, Or.inl ⟨rfl, rfl, bs, hh, rfl⟩⟩
    unfold kmalloc
    rw [if_pos hz]
  have hp : 0 < asked.toNat := by grind
  rcases hh.listed.kmalloc_cases hz with ⟨hlr, -⟩ | ⟨-, h0, -⟩ | ⟨-, -, -, heq⟩ |
    ⟨-, -, xs, n, ys, rfl, -, hn, heq⟩
  · omega
  · rw [h0, UInt64.toNat_zero] at hnd
    omega
  · grind
  · obtain ⟨h', ht, hfr, hlv, hk⟩ :=
      take_block_spec hh hnd (by omega) hhg hw hn
    rw [ht] at heq
    exact ⟨h', _, heq, hfr, Or.inr ⟨by omega, payloads_at hh.fits, hlv, hk⟩⟩

/-! ## Release -/

section
variable {m : Mem} {a n : Nat} {xs ys : List Block}

theorem mergeable_at {bf after c : Nat} {b : Block} (h : HeaderAt m c b bf after) (hc : 0 < c) :
    mergeable m c = true ↔ b.used = none := by
  unfold mergeable
  rw [h.free, h.magic]
  grind

/-- The byte is in no field of a header but the first ones, the magic number and the mark. -/
def Spared (a : Nat) : List Block → Nat → Prop
  | [], _ => True
  | b :: bs, x => (x < a + 8 ∨ a + 40 ≤ x) ∧ Spared (a + 40 + b.size) bs x

theorem spared_append {a x : Nat} {xs ys : List Block} :
    Spared a (xs ++ ys) x ↔ Spared a xs x ∧ Spared (a + span xs) ys x := by
  induction xs generalizing a with
  | nil => simp [Spared]
  | cons b xs ih => grind [List.cons_append, Spared, span_cons]

theorem Spared.head {a x : Nat} {ys : List Block} (h : Spared a ys x) (hy : ys ≠ []) :
    x < a + 8 ∨ a + 40 ≤ x := by
  obtain ⟨b, bs, rfl⟩ := List.exists_cons_of_ne_nil hy
  exact h.1

theorem absorb_spares {c : Block} (h : Seg m 0 a (xs ++ ⟨n, none⟩ :: c :: ys) 0)
    (hft : ∀ b ∈ xs ++ ⟨n, none⟩ :: c :: ys, b.Fits)
    (he : a + span xs + 40 + n + 40 + c.size < 2 ^ 64) {x : Nat}
    (hx : Spared a (xs ++ ⟨n, none⟩ :: c :: ys) x) :
    absorb m (a + span xs) (a + span xs + 40 + n) x = m x := by
  have hn : 16 ≤ n := (hft ⟨n, none⟩ (by simp)).size
  obtain ⟨hf, hs, -⟩ := (seg_append.mp h).2
  obtain ⟨hb, -, hr⟩ := (spared_append.mp hx).2
  rw [headOr_cons] at hf
  simp only at hf hs hr
  generalize ha : headOr (a + span xs + 40 + n + 40 + c.size) ys 0 = after at hs
  have hp := headOr_cases (a + span xs + 40 + n + 40 + c.size) ys
  rw [ha] at hp
  refine (absorb_at hf hs rfl hn (by omega) (by omega)).2.2 x hb ?_
  rcases hp with ⟨-, hat⟩ | ⟨hys, hat⟩
  · exact .inl hat
  · have := hr.head hys
    omega

theorem edit_refl {old : List Block} (h : Seg m 0 a (xs ++ old ++ ys) 0) : Edit m m a xs old old ys :=
  ⟨h, rfl, fun _ _ _ => rfl⟩

theorem merge_next (h : Seg m 0 a (xs ++ ⟨n, none⟩ :: ys) 0)
    (hft : ∀ b ∈ xs ++ ⟨n, none⟩ :: ys, b.Fits) (ha : 0 < a)
    (hen : a + span (xs ++ ⟨n, none⟩ :: ys) < 2 ^ 64) (hc : ys.IsChain NotBothFree) :
    ∃ r rest, ys = r ++ rest ∧ (∀ c ∈ r, c.used = none) ∧ (∀ c ∈ rest.head?, c.used ≠ none) ∧
      Edit m (if mergeable m (next m (a + span xs)) then
          absorb m (a + span xs) (next m (a + span xs)) else m)
        a xs (⟨n, none⟩ :: r) [⟨n + span r, none⟩] rest ∧
      ∀ x, Spared a (xs ++ ⟨n, none⟩ :: ys) x → (if mergeable m (next m (a + span xs)) then
        absorb m (a + span xs) (next m (a + span xs)) else m) x = m x := by
  have hn := h.middle.next
  simp only at hn
  have hs : Seg m 0 a (xs ++ [⟨n, none⟩] ++ ys) 0 := by simpa using h
  rw [hn]
  cases ys with
  | nil => exact ⟨[], [], rfl, by simp, by simp, edit_refl hs, fun _ _ => rfl⟩
  | cons c ys =>
    rw [headOr_cons]
    have hh : HeaderAt m (a + span xs + 40 + n) c (a + span xs)
        (headOr (a + span xs + 40 + n + 40 + c.size) ys 0) := (seg_append.mp h).2.2.1
    by_cases hf : c.used = none
    · rw [if_pos ((mergeable_at hh (by omega)).mpr hf)]
      simp only [span_append, span_cons] at hen
      refine ⟨[c], ys, rfl, by simp [hf], fun d hd => ?_, ?_,
        fun x hx => absorb_spares h hft (by omega) hx⟩
      · obtain ⟨ds, rfl⟩ : ∃ ds, ys = d :: ds := by
          cases ys with
          | nil => cases hd
          | cons e es => exact ⟨es, by rw [List.head?_cons] at hd; cases hd; rfl⟩
        exact (List.isChain_cons_cons.mp hc).1.resolve_left (not_not.mpr hf)
      · have he := absorb_edit h hft (by omega)
        have hsm : n + span [c] = n + 40 + c.size := by grind [span_cons, span_nil]
        rw [hsm]
        exact he
    · rw [if_neg fun hm => hf ((mergeable_at hh (by omega)).mp hm)]
      refine ⟨[], c :: ys, rfl, by simp, fun d hd => ?_, edit_refl hs, fun _ _ => rfl⟩
      cases hd
      exact hf

theorem merge_previous (h : Seg m 0 a (xs ++ ⟨n, none⟩ :: ys) 0)
    (hf : ∀ b ∈ xs ++ ⟨n, none⟩ :: ys, b.Fits) (ha : 0 < a)
    (hen : a + span (xs ++ ⟨n, none⟩ :: ys) < 2 ^ 64) (hc : xs.IsChain NotBothFree) :
    ∃ rest l, xs = rest ++ l ∧ (∀ c ∈ l, c.used = none) ∧ (∀ c ∈ rest.getLast?, c.used ≠ none) ∧
      Edit m (if mergeable m (previous m (a + span xs)) then
          absorb m (previous m (a + span xs)) (a + span xs) else m)
        a rest (l ++ [⟨n, none⟩]) [⟨span l + n, none⟩] ys ∧
      ∀ x, Spared a (xs ++ ⟨n, none⟩ :: ys) x → (if mergeable m (previous m (a + span xs)) then
        absorb m (previous m (a + span xs)) (a + span xs) else m) x = m x := by
  have hp := h.middle.previous
  have hsg : Seg m 0 a (xs ++ [⟨n, none⟩] ++ ys) 0 := by simpa using h
  rw [hp]
  rcases List.eq_nil_or_concat xs with rfl | ⟨zs, c, rfl⟩
  · refine ⟨[], [], rfl, by simp, by simp, ?_, fun _ _ => rfl⟩
    have hs : span [] + n = n := Nat.zero_add n
    rw [hs]
    exact edit_refl hsg
  rw [List.concat_eq_append] at *
  have hl : zs ++ [c] ++ ⟨n, none⟩ :: ys = zs ++ c :: ⟨n, none⟩ :: ys := by simp
  have hpl : a + span (zs ++ [c]) = a + span zs + 40 + c.size := by
    simp only [span_append, span_cons, span_nil]
    omega
  rw [hl] at h hf hen
  rw [lastOr_concat]
  have hh := h.middle
  by_cases hfr : c.used = none
  · rw [if_pos ((mergeable_at hh (by omega)).mpr hfr)]
    obtain ⟨k, u⟩ := c
    obtain rfl : u = none := hfr
    simp only [span_append, span_cons] at hen
    refine ⟨zs, [⟨k, none⟩], rfl, by simp, fun d hd => ?_, ?_, fun x hx => ?_⟩
    · obtain ⟨-, -, hls⟩ := List.isChain_append.mp hc
      exact (hls d hd ⟨k, none⟩ rfl).resolve_right (not_not.mpr rfl)
    · have he := absorb_edit h hf (by simp only; omega)
      have hs : span [⟨k, none⟩] + n = k + 40 + n := by grind [span_cons, span_nil]
      rw [hs, hpl]
      exact he
    · rw [hl] at hx
      rw [hpl]
      grind [absorb_spares]
  · rw [if_neg fun hm => hfr ((mergeable_at hh (by omega)).mp hm)]
    refine ⟨zs ++ [c], [], by simp, by simp, fun d hd => ?_, ?_, fun _ _ => rfl⟩
    · grind
    · have hs : span [] + n = n := Nat.zero_add n
      rw [hs]
      exact edit_refl hsg

end

/-- The memory after a block is taken back and merged with its neighbours. -/
def released (m : Mem) (block : Nat) : Mem :=
  let m := takeBack m block
  let m := if mergeable m (next m block) then absorb m block (next m block) else m
  if mergeable m (previous m block) then absorb m (previous m block) block else m

theorem release_all {m : Mem} {a : Nat} {xs ys : List Block} {b : Block}
    (h : Seg m 0 a (xs ++ b :: ys) 0) (hf : ∀ c ∈ xs ++ b :: ys, c.Fits) (ha : 0 < a)
    (he : a + span (xs ++ b :: ys) < 2 ^ 64) (hch : (xs ++ b :: ys).IsChain NotBothFree) :
    ∃ left l r right, xs = left ++ l ∧ ys = r ++ right ∧ (∀ c ∈ l, c.used = none) ∧
      (∀ c ∈ r, c.used = none) ∧
      (left ++ [(⟨span l + (b.size + span r), none⟩ : Block)] ++ right).IsChain NotBothFree ∧
      Edit m (released m (a + span xs)) a left (l ++ b :: r) [⟨span l + (b.size + span r), none⟩]
        right ∧
      ∀ x, Spared a (xs ++ b :: ys) x → released m (a + span xs) x = takeBack m (a + span xs) x := by
  obtain ⟨hxs, hys, -⟩ := List.isChain_append.mp hch
  have hb := (hf b (by simp)).size
  have hlf (c : Block) (hc : c ∈ xs) : c.Fits := hf c (by simp [hc])
  have hrg (c : Block) (hc : c ∈ ys) : c.Fits := hf c (by simp [hc])
  simp only [span_append, span_cons] at he
  have h1 := release_edit h hf
  have hs1 : Seg (takeBack m (a + span xs)) 0 a (xs ++ ⟨b.size, none⟩ :: ys) 0 := by
    simpa using h1.seg
  obtain ⟨r, right, rfl, hr, hh, h2, hs2⟩ := merge_next hs1 (by
      simp only [List.mem_append, List.mem_cons]
      rintro c (hc | rfl | hc)
      · exact hlf c hc
      · exact freeFits hb
      · exact hrg c (by simpa using hc)) ha
    (by simp only [span_append, span_cons]; omega) hys.of_cons
  have hs := h2.seg
  rw [List.append_assoc, List.singleton_append] at hs
  rw [span_append] at he
  obtain ⟨left, l, rfl, hl, hls, h3, hs3⟩ := merge_previous hs (by
      simp only [List.mem_append, List.mem_cons]
      rintro c (hc | rfl | hc)
      · exact hlf c hc
      · exact freeFits (by omega)
      · exact hrg c (by simp [hc])) ha
    (by simp only [span_append, span_cons]; omega) hxs
  refine ⟨left, l, r, right, rfl, rfl, hl, hr, ?_, ?_, fun x hx => ?_⟩
  · have hrs := (List.isChain_append.mp hys.of_cons).2.1
    have hfr := (List.isChain_append.mp hxs).1
    rw [List.append_assoc, List.isChain_append, List.singleton_append, List.isChain_cons]
    refine ⟨hfr, ⟨fun c hc => Or.inr (hh c hc), hrs⟩, fun c hc d hd => Or.inl (hls c hc)⟩
  · refine ⟨h3.seg, ?_, fun x hx hbc => ?_⟩
    · simp only [span_append, span_cons, span_nil]
      omega
    · simp only [span_append, span_cons] at hx hbc
      have hb1 : r ++ right = [] ∨ x < a + span (left ++ l) + span [b] + 32 ∨
          a + span (left ++ l) + span [b] + 40 ≤ x := by
        simp only [span_append, span_cons, span_nil]
        rcases r with _ | ⟨c, r⟩
        · simp only [span_nil] at hbc
          exact hbc.imp (fun hn => by simp [hn]) fun hx => by omega
        · simp only [span_cons] at hx
          exact Or.inr (by omega)
      have hb2 : right = [] ∨ x < a + span (left ++ l) + span (⟨b.size, none⟩ :: r) + 32 ∨
          a + span (left ++ l) + span (⟨b.size, none⟩ :: r) + 40 ≤ x := by
        simp only [span_append, span_cons]
        exact hbc.imp id fun hx => by omega
      have hb3 : right = [] ∨ x < a + span left + span (l ++ [⟨b.size + span r, none⟩]) + 32 ∨
          a + span left + span (l ++ [⟨b.size + span r, none⟩]) + 40 ≤ x := by
        simp only [span_append, span_cons, span_nil]
        exact hbc.imp id fun hx => by omega
      have ho1 := h1.outside x (by simp only [span_append, span_cons, span_nil]; omega) hb1
      have ho2 := h2.outside x (by simp only [span_append, span_cons]; omega) hb2
      have ho3 := h3.outside x (by simp only [span_append, span_cons, span_nil]; omega) hb3
      exact ho3.trans (ho2.trans ho1)
  · obtain ⟨hbf, hbl, hbh⟩ := spared_append.mp hx
    have hbehind' := (spared_append.mp hbh).2
    refine (hs3 x (spared_append.mpr ⟨hbf, hbl, ?_⟩)).trans
      (hs2 x (spared_append.mpr ⟨hbf, hbl, hbh⟩))
    rwa [← Nat.add_assoc]

theorem Holds.checks {h : Heap} {xs ys : List Block} {b : Block} {n : Nat}
    (hh : Holds h (xs ++ b :: ys)) (hu : b.used = some n) :
    ¬ (magic h.memory (h.heap_first + span xs) ≠ HEAP_MAGIC ∨
      isFree h.memory (h.heap_first + span xs) ≠ 0) ∧
    ¬ load64 h.memory (block_canary h.memory (h.heap_first + span xs)) ≠
      canary (h.heap_first + span xs) := by
  have hhd := hh.seg.middle
  have hne : b.used ≠ none := by simp [hu]
  refine ⟨?_, ?_⟩
  · rintro (hm | hf)
    · exact hm hhd.magic
    · rw [hhd.free, if_neg hne] at hf
      exact hf rfl
  · unfold block_canary
    rw [hhd.size]
    exact not_not.mpr (hhd.canary hne)

section
variable {a block : Nat} {left l r right : List Block} {b : Block}

theorem payloads_freed (hl : ∀ c ∈ l, c.used = none) (hr : ∀ c ∈ r, c.used = none)
    (hb : a + span (left ++ l) = block) (q : Nat) :
    payloads (a + span left) (l ++ b :: r) q = if q = block + 40 then b.used else none := by
  rw [payloads_append, payloads, payloads_free hl, payloads_free hr, Option.none_or, Option.or_none,
    Nat.add_assoc a, ← span_append, hb]

theorem payloads_release (hf : ∀ c ∈ left ++ (l ++ b :: r) ++ right, c.Fits)
    (hl : ∀ c ∈ l, c.used = none) (hr : ∀ c ∈ r, c.used = none) (hb : a + span (left ++ l) = block) :
    payloads a (left ++ [⟨span l + (b.size + span r), none⟩] ++ right) =
      Function.update (payloads a (left ++ (l ++ b :: r) ++ right)) (block + 40) none := by
  have hs : span [⟨span l + (b.size + span r), none⟩] = span (l ++ b :: r) := by
    simp only [span_append, span_cons, span_nil]
    omega
  refine payloads_edit hs (fun c hc => hf c (by simp [hc])) (fun c hc => hf c (by simp [hc]))
    (fun q => ?_) ?_ ?_
  · rw [payloads_free (by simp), payloads_freed hl hr hb]
    split
    · rfl
    · rfl
  · rw [← hb, span_append]
    omega
  · have := (hf b (by simp)).size
    grind [span_append, span_cons]

end

theorem Holds.kfree {h : Heap} {xs ys : List Block} {b : Block} {n : Nat}
    (hh : Holds h (xs ++ b :: ys)) (hu : b.used = some n) :
    let live := payloads h.heap_first (xs ++ b :: ys)
    let p := h.heap_first + span xs + 40
    ∃ left l r right h', xs = left ++ l ∧ ys = r ++ right ∧ kfree h p = some h' ∧
      h'.heap_first = h.heap_first ∧ Holds h' (left ++ [⟨span l + (b.size + span r), none⟩] ++ right) ∧
      payloads h.heap_first (left ++ [⟨span l + (b.size + span r), none⟩] ++ right) =
        Function.update live p none ∧
      Kept h.memory h'.memory (Function.update live p none) ∧
      ∀ x, Spared h.heap_first (xs ++ b :: ys) x →
        h'.memory x = takeBack h.memory (h.heap_first + span xs) x := by
  intro live p
  obtain ⟨hm, hcn⟩ := hh.checks hu
  have hrm := hh.room
  have hen : h.heap_first + span (xs ++ b :: ys) < 2 ^ 64 := by rw [hh.whole]; exact hrm
  have hsz : size (takeBack h.memory (h.heap_first + span xs)) (h.heap_first + span xs) =
      size h.memory (h.heap_first + span xs) := by
    rw [← UInt64.toNat_inj, (takeBack_at hh.seg.middle).size, hh.seg.middle.size]
  obtain ⟨left, l, r, right, rfl, rfl, hlt, hrg, hch, he, hsp⟩ :=
    release_all hh.seg hh.fits hh.first hen hh.apart
  have hhd := hh.seg.middle
  have hcl : heap.kfree h p =
      some ⟨released h.memory (h.heap_first + span (left ++ l)), h.heap_first,
        h.heap_used - size h.memory (h.heap_first + span (left ++ l)), h.heap_allocations - 1,
        h.heap_failures, h.heap_invalid_frees⟩ := by
    unfold heap.kfree
    rw [if_neg (by omega), Nat.add_sub_cancel, if_neg hm, if_neg hcn, ← hsz]
    rfl
  have hls : left ++ l ++ b :: (r ++ right) = left ++ (l ++ b :: r) ++ right := by simp
  have hlv : live = payloads h.heap_first (left ++ (l ++ b :: r) ++ right) := by rw [← hls]
  rw [hls] at hh
  have hb1 : usedBytes [b] = b.size ∧ usedCount [b] = 1 := by simp [usedBytes, usedCount, hu]
  have hcs : l ++ b :: r = l ++ [b] ++ r := by simp
  have hlf := used_free hlt
  have hrh := used_free hrg
  have hn : usedBytes [⟨span l + (b.size + span r), none⟩] = 0 ∧
      usedCount [⟨span l + (b.size + span r), none⟩] = 0 := used_free (by simp)
  refine ⟨left, l, r, right, _, rfl, rfl, hcl, rfl, hh.edit he ?_ ?_ hch ?_ ?_,
    by rw [hlv]; exact payloads_release hh.fits hlt hrg rfl, ?_, hsp⟩
  · have := (hh.fits b (by simp)).size
    grind [List.mem_singleton, freeFits]
  · have hb := hh.words b (by simp)
    have hl : 8 ∣ span l := span_words fun c hc => hh.words c (by simp [hc])
    have hr : 8 ∣ span r := span_words fun c hc => hh.words c (by simp [hc])
    grind
  · have hs := hh.used
    rw [hcs] at hs
    simp only [usedBytes_append, hlf.1, hrh.1, hb1.1, hn.1] at hs ⊢
    rw [UInt64.toNat_sub_of_le, hs, hhd.size]
    · omega
    · rw [UInt64.le_iff_toNat_le, hs, hhd.size]
      omega
  · have hs := hh.allocations
    grind [usedCount_append, UInt64.toNat_sub_of_le, UInt64.le_iff_toNat_le]
  · intro q k hq i hi
    by_cases hqp : q = p
    · grind
    · rw [Function.update_of_ne hqp, hlv] at hq
      exact he.kept hh.fits (by rw [payloads_freed hlt hrg rfl, if_neg hqp]) hq hi

theorem kfree_spec {h : Heap} {live : Nat → Option Nat} (hl : Live h live) {p n : Nat}
    (hp : live p = some n) :
    ∃ h', kfree h p = some h' ∧ h'.heap_first = h.heap_first ∧
      Live h' (Function.update live p none) ∧
      Kept h.memory h'.memory (Function.update live p none) := by
  obtain ⟨bs, hh, rfl⟩ := hl
  obtain ⟨xs, b, ys, rfl, rfl, hu⟩ := payloads_block hp
  obtain ⟨left, l, r, right, h', -, -, hc, hf, hh', hlv, hk, -⟩ := hh.kfree hu
  exact ⟨h', hc, hf, ⟨_, hh', by rw [hf]; exact hlv.symm⟩, hk⟩

/-! ## The other calls -/

section
variable {h : Heap} {live : Nat → Option Nat}

theorem kcalloc_spec (hl : Live h live) {count s : UInt64}
    (ht : count.toNat * s.toNat < 2 ^ 32 - 24) :
    ∃ h' p, kcalloc h count s = some (h', p) ∧ h'.heap_first = h.heap_first ∧
      ((p = 0 ∧ h'.memory = h.memory ∧ Live h' live) ∨
        (p ≠ 0 ∧ live p = none ∧ Live h' (Function.update live p (some (count.toNat * s.toNat))) ∧
          Kept h.memory h'.memory live ∧ ∀ i < count.toNat * s.toNat, h'.memory (p + i) = 0)) := by
  unfold kcalloc
  by_cases hz : count = 0 ∨ s = 0
  · grind
  have hc : 0 < count.toNat := by grind
  have hft : ¬ s > 0xFFFFFFFFFFFFFFFF / count := by
    have hmx : (0xFFFFFFFFFFFFFFFF : UInt64).toNat = 2 ^ 64 - 1 := rfl
    rw [gt_iff_lt, UInt64.lt_iff_toNat_lt, UInt64.toNat_div, hmx, Nat.not_lt,
      Nat.le_div_iff_mul_le hc, Nat.mul_comm]
    omega
  have hpr : (count * s).toNat = count.toNat * s.toNat := by grind
  rw [if_neg hz, if_neg hft]
  obtain ⟨h', p, hcl, hf, hr⟩ := kmalloc_spec hl (hpr ▸ ht)
  simp only
  rw [hcl, hpr] at *
  rcases hr with ⟨rfl, hm, hlv⟩ | ⟨hp, hn, hlv, hk⟩
  · grind
  · have ho (x : Nat) (hx : x < p ∨ p + count.toNat * s.toNat ≤ x) :
        fill h'.memory p (count.toNat * s.toNat) 0 x = h'.memory x := fill_outside _ _ hx
    have hg : Function.update live p (some (count.toNat * s.toNat)) p =
        some (count.toNat * s.toNat) := Function.update_self _ _ _
    have hot := hlv.write_keeps hg ho
    simp only
    rw [if_neg hp]
    refine ⟨_, p, rfl, hf, Or.inr ⟨hp, hn, hlv.write hg ho, ?_, ?_⟩⟩
    · intro q k hq i hi
      have hqp : q ≠ p := by grind
      have hq' : Function.update (Function.update live p (some (count.toNat * s.toNat))) p none q =
          some k := by grind
      exact (hot q k hq' i hi).trans (hk q k hq i hi)
    · grind

theorem Live.block (hl : Live h live) {p n : Nat} (hp : live p = some n) :
    ∃ xs b ys, Holds h (xs ++ b :: ys) ∧ live = payloads h.heap_first (xs ++ b :: ys) ∧
      p = h.heap_first + span xs + 40 ∧ b.used = some n := by
  obtain ⟨bs, hh, rfl⟩ := hl
  grind [payloads_block]

theorem Live.requested (hl : Live h live) {p n : Nat} (hp : live p = some n) :
    (heap.requested h.memory (p - 40)).toNat = n := by
  obtain ⟨xs, b, ys, hh, -, rfl, hu⟩ := hl.block hp
  rw [Nat.add_sub_cancel, hh.seg.middle.requested, hu]
  rfl

theorem shrink_spec {xs ys : List Block} {b : Block} {n : Nat} {s : UInt64}
    (hh : Holds h (xs ++ b :: ys)) (hu : b.used = some n) (hs : s.toNat ≤ n) :
    let m := setRequested h.memory (h.heap_first + span xs) s
    Live { h with memory := m } (Function.update (payloads h.heap_first (xs ++ b :: ys))
        (h.heap_first + span xs + 40) (some s.toNat)) ∧
      Kept h.memory m (payloads h.heap_first (xs ++ b :: ys)) := by
  intro m
  have hb := hh.fits b (by simp)
  have hr := hb.used n hu
  have hhd := hh.seg.middle
  have hn : HeaderAt m (h.heap_first + span xs) ⟨b.size, some s.toNat⟩
      (lastOr 0 h.heap_first xs) (headOr (h.heap_first + span xs + 40 + b.size) ys 0) := by
    have hl (k : Nat) (hk : k + 8 ≤ 16 ∨ 24 ≤ k) :
        load64 m (h.heap_first + span xs + k) = load64 h.memory (h.heap_first + span xs + k) :=
      load64_store64_ne _ _ (by omega)
    refine ⟨?_, ?_, ?_, ?_, ?_, ?_, fun _ => ?_⟩
    · rw [← hhd.magic]
      exact load32_store64_ne _ _ (by omega)
    · have hf := hhd.free
      rw [hu, if_neg (by simp)] at hf
      exact (store64_outside _ _ (by omega)).trans hf
    · exact (congrArg UInt64.toNat (hl 8 (by omega))).trans hhd.size
    · exact congrArg UInt64.toNat (load64_store64 _ _ _)
    · exact (congrArg UInt64.toNat (hl 24 (by omega))).trans hhd.next
    · exact (congrArg UInt64.toNat (hl 32 (by omega))).trans hhd.previous
    · rw [← hhd.canary (by simp [hu])]
      exact load64_store64_ne _ _ (by simp only; omega)
  have he : Edit h.memory m h.heap_first xs [b] [⟨b.size, some s.toNat⟩] ys :=
    edit_one hh.seg hh.fits rfl hn fun x hx => setRequested_outside _ _ (by omega)
  have hls : xs ++ b :: ys = xs ++ [b] ++ ys := by simp
  rw [hls] at hh ⊢
  have hold (q : Nat) : payloads (h.heap_first + span xs) [b] q =
      if q = h.heap_first + span xs + 40 then b.used else none := by
    rw [payloads, payloads, Option.or_none]
  refine ⟨⟨xs ++ [⟨b.size, some s.toNat⟩] ++ ys, hh.edit he ?_ ?_ (apart_used hh.apart (by simp)) ?_ ?_,
    ?_⟩, ?_⟩
  · simp only [List.mem_singleton, forall_eq]
    refine ⟨hb.size, fun k hk => ?_⟩
    grind
  · simp only [List.mem_singleton, forall_eq]
    exact hh.words b (by simp)
  · rw [hh.used]
    simp [usedBytes, hu]
  · rw [hh.allocations]
    simp [usedCount, hu]
  · symm
    show payloads h.heap_first _ = _
    refine payloads_edit he.bytes (fun c hc => hh.fits c (by simp [hc]))
      (fun c hc => hh.fits c (by simp [hc])) (fun q => ?_) (by omega) ?_
    · rw [hold, payloads, payloads, Option.or_none]
      split
      · rfl
      · rfl
    grind [span_cons, span_nil]
  · intro q k hq i hi
    by_cases hqp : q = h.heap_first + span xs + 40
    · exact setRequested_outside _ _ (by omega)
    · exact he.kept hh.fits (by rw [hold, if_neg hqp]) hq hi

theorem krealloc_spec (hl : Live h live) {p n : Nat} (hp : live p = some n) {s : UInt64}
    (hz : s ≠ 0) (hsz : s.toNat < 2 ^ 32 - 24) :
    ∃ h' q, krealloc h p s = some (h', q) ∧ h'.heap_first = h.heap_first ∧
      ((q = 0 ∧ h'.memory = h.memory ∧ Live h' live) ∨
        (q ≠ 0 ∧ Live h' (Function.update (Function.update live p none) q (some s.toNat)) ∧
          Kept h.memory h'.memory (Function.update live p none) ∧
          ∀ i < min n s.toNat, h'.memory (q + i) = h.memory (p + i))) := by
  obtain ⟨xs, b, ys, hh, hls, hpl, hu⟩ := hl.block hp
  obtain ⟨hm, hc⟩ := hh.checks hu
  have hbn := hl.inside hp
  have hrs := hl.requested hp
  have hb : p - 40 = h.heap_first + span xs := by omega
  unfold krealloc
  rw [if_neg (by omega : ¬ p = 0), if_neg hz]
  simp only
  rw [← hb] at hm hc
  rw [if_neg hm, if_neg hc]
  by_cases hs : s ≤ requested h.memory (p - 40)
  · rw [if_pos hs]
    rw [UInt64.le_iff_toNat_le, hrs] at hs
    obtain ⟨hlv, hk⟩ := shrink_spec hh hu hs
    rw [← hls, ← hpl, ← hb] at hlv
    rw [← hls, ← hb] at hk
    refine ⟨_, p, rfl, rfl, Or.inr ⟨by omega, ?_, ?_, ?_⟩⟩
    · rw [Function.update_idem]
      exact hlv
    · intro q k hq i hi
      by_cases hqp : q = p
      · grind
      · rw [Function.update_of_ne hqp] at hq
        exact hk q k hq i hi
    · exact fun i hi => hk p n hp i (by omega)
  · rw [if_neg hs]
    rw [UInt64.le_iff_toNat_le, hrs] at hs
    obtain ⟨h1, q, hcl, hf, hrl⟩ := kmalloc_spec hl hsz
    rw [hcl]
    rcases hrl with ⟨rfl, hmm, hlv⟩ | ⟨hq, hn, hlv, hk⟩
    · grind
    simp only
    rw [if_neg hq]
    have hqp : p ≠ q := by grind
    have hp1 : Function.update live q (some s.toNat) p = some n := by
      rw [Function.update_of_ne hqp, hp]
    have hq1 : Function.update live q (some s.toNat) q = some s.toNat := Function.update_self _ _ _
    rw [hlv.requested hp1]
    have ho (x : Nat) (hx : x < q ∨ q + s.toNat ≤ x) :
        copy h1.memory q h1.memory p n x = h1.memory x := copy_outside _ _ (by omega)
    obtain ⟨h3, hfr, hf3, hl3, hk3⟩ := kfree_spec (hlv.write hq1 ho) hp1
    rw [hfr]
    have hot := hlv.write_keeps hq1 ho
    refine ⟨h3, q, rfl, hf3.trans hf, Or.inr ⟨hq, ?_, ?_, ?_⟩⟩
    · grind [Function.update_comm]
    · intro r k hr i hi
      by_cases hrp : r = p
      · grind
      rw [Function.update_of_ne hrp] at hr
      have hrq : r ≠ q := by grind
      have hr3 : Function.update (Function.update live q (some s.toNat)) p none r = some k := by
        grind
      have hr2 : Function.update (Function.update live q (some s.toNat)) q none r = some k := by
        grind
      exact (hk3 r k hr3 i hi).trans ((hot r k hr2 i hi).trans (hk r k hr i hi))
    · intro i hi
      have hq3 : Function.update (Function.update live q (some s.toNat)) p none q =
          some s.toNat := by grind
      have hcp : copy h1.memory q h1.memory p n (q + i) = h1.memory (p + i) := by
        rw [copy_inside _ _ (by omega) (by omega), Nat.add_sub_cancel_left]
      exact (hk3 q _ hq3 i (by omega)).trans (hcp.trans (hk p n hp i (by omega)))

end

end mvh.heap
