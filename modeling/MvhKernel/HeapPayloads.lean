-- The allocations that a list of blocks holds, by the address of their bytes, and what it
-- means that a heap holds a list of blocks.
import MvhKernel.HeapEdits

open flat_memory

namespace mvh.heap

/-! ## Payloads -/

/-- The sizes that were asked for, by the address that was given out. -/
def payloads (a : Nat) : List Block → Nat → Option Nat
  | [], _ => none
  | b :: bs, p => (if p = a + 40 then b.used else none).or (payloads (a + 40 + b.size) bs p)

section
variable {a p q n k : Nat} {xs ys bs : List Block} {b : Block}

theorem payloads_append :
    payloads a (xs ++ ys) p = (payloads a xs p).or (payloads (a + span xs) ys p) := by
  induction xs generalizing a with
  | nil => simp [payloads]
  | cons b xs ih => grind [List.cons_append, payloads, span_cons, Option.or_assoc]

theorem payloads_bounds (hf : ∀ b ∈ bs, b.Fits) (h : payloads a bs p = some n) :
    a + 40 ≤ p ∧ p + n + 8 ≤ a + span bs := by
  induction bs generalizing a with
  | nil => cases h
  | cons b bs ih =>
    rw [payloads, Option.or_eq_some_iff] at h
    rw [span_cons]
    rcases h with h | ⟨-, h⟩
    · have hu := (hf b List.mem_cons_self).used n
      grind
    · grind

theorem payloads_below (hf : ∀ b ∈ bs, b.Fits) (h : p < a + 40) : payloads a bs p = none := by
  cases hp : payloads a bs p with
  | none => rfl
  | some n =>
    have := payloads_bounds hf hp
    omega

theorem payloads_above (hf : ∀ b ∈ bs, b.Fits) (h : a + span bs ≤ p) : payloads a bs p = none := by
  cases hp : payloads a bs p with
  | none => rfl
  | some n =>
    have := payloads_bounds hf hp
    omega

theorem payloads_block (h : payloads a bs p = some n) :
    ∃ xs b ys, bs = xs ++ b :: ys ∧ p = a + span xs + 40 ∧ b.used = some n := by
  induction bs generalizing a with
  | nil => cases h
  | cons b bs ih =>
    rw [payloads, Option.or_eq_some_iff] at h
    rcases h with h | ⟨-, h⟩
    · split at h
      next hp => exact ⟨[], b, bs, rfl, by simpa using hp, h⟩
      next => cases h
    grind [span_cons]

theorem payloads_at (hf : ∀ c ∈ xs ++ b :: ys, c.Fits) :
    payloads a (xs ++ b :: ys) (a + span xs + 40) = b.used := by
  have hxs : payloads a xs (a + span xs + 40) = none := by grind [payloads_above]
  have hys : payloads (a + span xs + 40 + b.size) ys (a + span xs + 40) = none := by grind [payloads_below]
  grind [payloads_append, Option.none_or, payloads, Option.or_none]

theorem payloads_apart (hf : ∀ b ∈ bs, b.Fits) (hp : payloads a bs p = some n)
    (hq : payloads a bs q = some k) (hlt : p < q) : p + n + 48 ≤ q := by
  induction bs generalizing a with
  | nil => cases hp
  | cons b bs ih =>
    have ht : ∀ b ∈ bs, b.Fits := by grind
    rw [payloads, Option.or_eq_some_iff] at hp hq
    rcases hp with hp | ⟨-, hp⟩
    · have hu := (hf b List.mem_cons_self).used n
      split at hp
      · have := hu hp
        rcases hq with hq | ⟨-, hq⟩
        · grind
        · have := payloads_bounds ht hq
          omega
      · cases hp
    · have hb := payloads_bounds ht hp
      grind

theorem payloads_free (h : ∀ b ∈ bs, b.used = none) : payloads a bs p = none := by
  induction bs generalizing a with
  | nil => rfl
  | cons b bs ih => grind [payloads]

theorem free_of_payloads (h : ∀ p, payloads a bs p = none) :
    ∀ b ∈ bs, b.used = none := by
  intro b hb
  obtain ⟨xs, ys, rfl⟩ := List.append_of_mem hb
  have hn := h (a + span xs + 40)
  grind [payloads_append, Option.or_eq_none_iff, payloads]

theorem payloads_edit {old new : List Block} {v : Option Nat} (hs : span new = span old)
    (hxs : ∀ b ∈ xs, b.Fits) (hys : ∀ b ∈ ys, b.Fits)
    (hn : ∀ q, payloads (a + span xs) new q = if q = p then v else payloads (a + span xs) old q)
    (hl : a + span xs ≤ p) (hh : p < a + span xs + span old) :
    payloads a (xs ++ new ++ ys) = Function.update (payloads a (xs ++ old ++ ys)) p v := by
  funext q
  rw [payloads_append, payloads_append, span_append, hs, hn]
  grind [Function.update_self, payloads_above, payloads_below, Function.update_of_ne, payloads_append, span_append]

end

/-! ## What a heap holds -/

def usedBytes (bs : List Block) : Nat := (bs.map fun b => if b.used = none then 0 else b.size).sum

def usedCount (bs : List Block) : Nat := (bs.map fun b => if b.used = none then 0 else 1).sum

def NotBothFree (b c : Block) : Prop := b.used ≠ none ∨ c.used ≠ none

/-- The heap holds the blocks: they are linked in memory, fill the region, and the counters are right. -/
structure Holds (h : Heap) (bs : List Block) : Prop where
  first : 0 < h.heap_first
  room : h.heap_first + REGION < 2 ^ 64
  seg : Seg h.memory 0 h.heap_first bs 0
  whole : span bs = REGION
  fits : ∀ b ∈ bs, b.Fits
  words : ∀ b ∈ bs, 8 ∣ b.size
  apart : bs.IsChain NotBothFree
  used : h.heap_used.toNat = usedBytes bs
  allocations : h.heap_allocations.toNat = usedCount bs

/-- The block list is well formed: the blocks are linked in memory, one behind the other in the
region. -/
structure Listed (h : Heap) (bs : List Block) : Prop where
  first : 0 < h.heap_first
  nonempty : bs ≠ []
  seg : Seg h.memory 0 h.heap_first bs 0
  room : span bs ≤ REGION

def Live (h : Heap) (live : Nat → Option Nat) : Prop :=
  ∃ bs, Holds h bs ∧ live = payloads h.heap_first bs

def Kept (m m' : Mem) (live : Nat → Option Nat) : Prop :=
  ∀ p n, live p = some n → ∀ i < n, m' (p + i) = m (p + i)

section
variable {h : Heap} {bs xs ys old new : List Block} {m' : Mem} {live : Nat → Option Nat} {p n : Nat}

theorem usedBytes_append : usedBytes (xs ++ ys) = usedBytes xs + usedBytes ys := by
  simp [usedBytes]

theorem usedCount_append : usedCount (xs ++ ys) = usedCount xs + usedCount ys := by
  simp [usedCount]

theorem usedBytes_le (bs : List Block) : usedBytes bs ≤ span bs := by
  induction bs with
  | nil => exact le_refl 0
  | cons b bs ih =>
    have hc : usedBytes (b :: bs) = (if b.used = none then 0 else b.size) + usedBytes bs := rfl
    grind [span_cons]

theorem usedCount_le (bs : List Block) : usedCount bs ≤ span bs := by
  induction bs with
  | nil => exact le_refl 0
  | cons b bs ih =>
    have hc : usedCount (b :: bs) = (if b.used = none then 0 else 1) + usedCount bs := rfl
    grind [span_cons]

theorem used_free (hf : ∀ c ∈ bs, c.used = none) : usedBytes bs = 0 ∧ usedCount bs = 0 := by
  unfold usedBytes usedCount
  grind [List.sum_eq_zero_iff, List.mem_map.mp]

theorem span_words (hw : ∀ c ∈ bs, 8 ∣ c.size) : 8 ∣ span bs := by
  refine List.dvd_sum fun x hx => ?_
  obtain ⟨c, hc, rfl⟩ := List.mem_map.mp hx
  exact Nat.dvd_add (by decide) (hw c hc)

theorem Holds.edit (hh : Holds h (xs ++ old ++ ys)) (he : Edit h.memory m' h.heap_first xs old new ys)
    (hf : ∀ b ∈ new, b.Fits) (hw : ∀ b ∈ new, 8 ∣ b.size)
    (hap : (xs ++ new ++ ys).IsChain NotBothFree)
    {used allocations f i : UInt64} (hu : used.toNat = usedBytes (xs ++ new ++ ys))
    (ha : allocations.toNat = usedCount (xs ++ new ++ ys)) :
    Holds ⟨m', h.heap_first, used, allocations, f, i⟩ (xs ++ new ++ ys) where
  first := hh.first
  room := hh.room
  seg := he.seg
  whole := by
    have := hh.whole
    simpa [span_append, he.bytes] using this
  fits b hb := by
    simp only [List.mem_append] at hb
    rcases hb with (hb | hb) | hb
    · exact hh.fits b (by simp [hb])
    · exact hf b hb
    · exact hh.fits b (by simp [hb])
  words b hb := by
    simp only [List.mem_append] at hb
    rcases hb with (hb | hb) | hb
    · exact hh.words b (by simp [hb])
    · exact hw b hb
    · exact hh.words b (by simp [hb])
  apart := hap
  used := hu
  allocations := ha

theorem Edit.kept {m : Mem} {a : Nat} (he : Edit m m' a xs old new ys)
    (hf : ∀ b ∈ xs ++ old ++ ys, b.Fits) {q k : Nat} (hold : payloads (a + span xs) old q = none)
    (hq : payloads a (xs ++ old ++ ys) q = some k) {i : Nat} (hi : i < k) : m' (q + i) = m (q + i) := by
  rw [payloads_append, payloads_append, hold, Option.or_none, Option.or_eq_some_iff, span_append] at hq
  rcases hq with hq | ⟨-, hq⟩
  · have := payloads_bounds (fun b hb => hf b (by simp [hb])) hq
    exact he.outside _ (by omega) (by omega)
  · have := payloads_bounds (fun b hb => hf b (by simp [hb])) hq
    exact he.outside _ (by omega) (by omega)

/-! ## Allocations in a heap -/

theorem Live.inside (hl : Live h live) (hp : live p = some n) :
    h.heap_first + 40 ≤ p ∧ p + n + 8 ≤ h.heap_first + REGION := by
  obtain ⟨bs, hh, rfl⟩ := hl
  have := payloads_bounds hh.fits hp
  rw [hh.whole] at this
  exact this

theorem Live.apart (hl : Live h live) {q k : Nat} (hp : live p = some n) (hq : live q = some k)
    (hne : p ≠ q) : p + n + 48 ≤ q ∨ q + k + 48 ≤ p := by
  obtain ⟨bs, hh, rfl⟩ := hl
  rcases Nat.lt_or_gt_of_ne hne with hlt | hlt
  · exact Or.inl (payloads_apart hh.fits hp hq hlt)
  · exact Or.inr (payloads_apart hh.fits hq hp hlt)

theorem Live.null (hl : Live h live) : live 0 = none := by
  cases hn : live 0 with
  | none => rfl
  | some n =>
    have := hl.inside hn
    omega

theorem Live.write (hl : Live h live) (hp : live p = some n)
    (ho : ∀ x, x < p ∨ p + n ≤ x → m' x = h.memory x) : Live { h with memory := m' } live := by
  obtain ⟨bs, hh, rfl⟩ := hl
  obtain ⟨xs, b, ys, rfl, rfl, hu⟩ := payloads_block hp
  have hb : b.Fits := hh.fits b (by simp)
  have hr := hb.used n hu
  have hhd : HeaderAt m' (h.heap_first + span xs) b (lastOr 0 h.heap_first xs)
      (headOr (h.heap_first + span xs + 40 + b.size) ys 0) := by
    refine hh.seg.middle.congr hb (fun x h1 h2 => ?_) (fun _ x h1 h2 => ?_)
    · exact ho x (by omega)
    · exact ho x (by omega)
  have he : Edit h.memory m' h.heap_first xs [b] [b] ys :=
    edit_one hh.seg hh.fits rfl hhd fun x hx => ho x (by omega)
  have hls : xs ++ b :: ys = xs ++ [b] ++ ys := by simp
  rw [hls] at hh ⊢
  have hin (c : Block) (hc : c ∈ [b]) : c ∈ xs ++ [b] ++ ys := by grind
  exact ⟨_, hh.edit he (fun c hc => hh.fits c (hin c hc)) (fun c hc => hh.words c (hin c hc))
    hh.apart hh.used hh.allocations, rfl⟩

theorem Live.write_keeps (hl : Live h live) (hp : live p = some n)
    (ho : ∀ x, x < p ∨ p + n ≤ x → m' x = h.memory x) :
    Kept h.memory m' (Function.update live p none) := by
  intro q k hq i hi
  by_cases hqp : q = p
  · grind
  · rw [Function.update_of_ne hqp] at hq
    have := hl.apart hp hq (Ne.symm hqp)
    exact ho _ (by omega)

end

end mvh.heap
