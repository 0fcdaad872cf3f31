-- First fit: which block an allocation gets, and when it gets none.
import MvhKernel.HeapRuns

open flat_memory

namespace mvh.heap

def roundUp (n : Nat) : Nat := (n + 15) / 16 * 16

/-- What first fit promises of an allocation, for the blocks of the list before it. -/
structure FirstFit (h : Heap) (bs : List Block) (asked : UInt64) (h' : Heap) (p : Nat) : Prop where
  fails : p = 0 ↔ 2 ^ 64 - 24 < asked.toNat ∨ ∀ b ∈ bs, ¬ Suits (roundUp (asked.toNat + 8)) b
  lowest : p ≠ 0 → ∃ xs b ys, bs = xs ++ b :: ys ∧ Suits (roundUp (asked.toNat + 8)) b ∧
    (∀ c ∈ xs, ¬ Suits (roundUp (asked.toNat + 8)) c) ∧ p = h.heap_first + span xs + 40
  room : p ≠ 0 → asked.toNat + 8 ≤ (size h'.memory (p - 40)).toNat
  unchanged : p = 0 → h' = { h with heap_failures := h'.heap_failures }

theorem size_giveOut {m : Mem} {a : Nat} (ak : UInt64) (h : 8 ≤ (size m a).toNat) :
    size (giveOut m a ak) a = size m a := by
  have hs : size (setRequested (setFree m a 0) a ak) a = size m a := by
    unfold size setRequested
    rw [load64_store64_ne _ _ (by omega)]
    exact load64_congr fun i hi => setByte_ne _ _ _ (by omega)
  have hc : a + 40 ≤ block_canary (setRequested (setFree m a 0) a ak) a := by
    grind [block_canary]
  unfold giveOut
  simp only
  generalize block_canary (setRequested (setFree m a 0) a ak) a = place at hc ⊢
  rw [← hs]
  exact load64_store64_ne _ _ (by omega)

theorem size_take_block (h : Heap) (b : Nat) (asked : UInt64) {needed : UInt64}
    (hl : 16 ≤ needed.toNat) (hf : needed.toNat ≤ (size h.memory b).toNat) :
    needed.toNat ≤ (size (take_block h b asked needed).1.memory b).toNat := by
  have hm : (take_block h b asked needed).1.memory =
      giveOut (if size h.memory b ≥ needed + 40 + 16 then split_block h.memory b needed
        else h.memory) b asked := rfl
  have hs : size (split_block h.memory b needed) b = needed := load64_store64 _ _ _
  grind [size_giveOut]

section
variable {h : Heap} {bs : List Block}

theorem Listed.not_suits (hl : Listed h bs) {n : Nat} (hn : REGION < n) :
    ∀ b ∈ bs, ¬ Suits n b := by
  rintro b hb ⟨-, hs⟩
  obtain ⟨xs, ys, rfl⟩ := List.append_of_mem hb
  have hr := hl.room
  rw [span_append, span_cons] at hr
  omega

theorem firstFit_refused (h : Heap) (f : UInt64) {a : UInt64}
    (hw : 2 ^ 64 - 24 < a.toNat ∨ ∀ b ∈ bs, ¬ Suits (roundUp (a.toNat + 8)) b) :
    FirstFit h bs a { h with heap_failures := f } 0 where
  fails := ⟨fun _ => hw, fun _ => rfl⟩
  lowest hp := absurd rfl hp
  room hp := absurd rfl hp
  unchanged _ := rfl

theorem Listed.firstFit_taken {xs ys : List Block} {n : Nat} (hl : Listed h (xs ++ ⟨n, none⟩ :: ys))
    {a nd : UInt64} (hnd : nd.toNat = roundUp (a.toNat + 8))
    (hlm : ¬ 2 ^ 64 - 24 < a.toNat) (hxs : ∀ c ∈ xs, ¬ Suits nd.toNat c) (hn : nd.toNat ≤ n) :
    FirstFit h (xs ++ ⟨n, none⟩ :: ys) a (take_block h (h.heap_first + span xs) a nd).1
      (h.heap_first + span xs + 40) := by
  have hr : a.toNat + 8 ≤ roundUp (a.toNat + 8) := by
    unfold roundUp
    omega
  have hlw : 16 ≤ nd.toNat := by
    rw [hnd, roundUp]
    omega
  have hs := size_take_block h (h.heap_first + span xs) a hlw (by rw [hl.seg.middle.size]; exact hn)
  rw [hnd] at hxs hn hs
  have hst : Suits (roundUp (a.toNat + 8)) ⟨n, none⟩ := ⟨rfl, hn⟩
  have hpl : h.heap_first + span xs + 40 ≠ 0 := by omega
  refine ⟨⟨fun hp => absurd hp hpl, ?_⟩, fun _ => ⟨xs, ⟨n, none⟩, ys, rfl, hst, hxs, rfl⟩,
    fun _ => hr.trans hs, fun hp => absurd hp hpl⟩
  grind

/-- An allocation is first fit if its size is below 4 GiB or above the limit, and else only when the
size that is left of it in 32 bits is 0 or larger than every free block. -/
theorem first_fit_iff (hl : Listed h bs) (asked : UInt64) (hasked : 0 < asked.toNat) :
    ∃ h' p, kmalloc h asked = some (h', p) ∧
      (FirstFit h bs asked h' p ↔
        asked.toNat < 2 ^ 32 - 23 ∨ 2 ^ 64 - 24 < asked.toNat ∨ (asked.toNat + 23) % 2 ^ 32 < 16 ∨
          ∀ b ∈ bs, ¬ Suits ((asked.toNat + 23) % 2 ^ 32 / 16 * 16) b) := by
  have hregion : REGION = 1048576 := rfl
  have hneeded := toNat_needed asked
  have hzero : asked ≠ 0 := fun h0 => by
    rw [h0] at hasked
    exact absurd hasked (by decide)
  have hsmall : asked.toNat < 2 ^ 32 - 23 →
      (align16 (asked + 8)).toNat = roundUp (asked.toNat + 8) := by
    intro hlt
    rw [hneeded, roundUp]
    omega
  have hlarge : ¬ asked.toNat < 2 ^ 32 - 23 → ∀ b ∈ bs, ¬ Suits (roundUp (asked.toNat + 8)) b := by
    intro hge
    apply hl.not_suits
    unfold roundUp
    omega
  rcases hl.kmalloc_cases hzero with ⟨hlimit, heq⟩ | ⟨hlimit, h0, heq⟩ | ⟨hlimit, hne, hnone, heq⟩ |
    ⟨hlimit, hne, xs, n, ys, rfl, hxs, hn, heq⟩
  · exact ⟨_, _, heq, fun _ => .inr (.inl hlimit), fun _ => firstFit_refused h _ (.inl hlimit)⟩
  · have hlow : (asked.toNat + 23) % 2 ^ 32 < 16 := by
      rw [h0, UInt64.toNat_zero] at hneeded
      omega
    exact ⟨_, _, heq, fun _ => .inr (.inr (.inl hlow)),
      fun _ => firstFit_refused h _ (.inr (hlarge (by omega)))⟩
  · refine ⟨_, _, heq, fun _ => .inr (.inr (.inr (hneeded ▸ hnone))), fun _ => firstFit_refused h _ (.inr ?_)⟩
    by_cases hlt : asked.toNat < 2 ^ 32 - 23
    · rw [← hsmall hlt]
      exact hnone
    · exact hlarge hlt
  · have hlow : (align16 (asked + 8)).toNat ≠ 0 := fun h0 => hne (UInt64.toNat_inj.mp h0)
    refine ⟨_, _, heq, fun hfit => ?_, fun hwhen => ?_⟩
    · -- a size of 4 GiB or more has been given a block that cannot hold it
      left
      by_contra hge
      have hp := hfit.fails.mpr (.inr (hlarge hge))
      have : h.heap_first + span xs + 40 = 0 := hp
      omega
    · have hlt : asked.toNat < 2 ^ 32 - 23 := by
        rcases hwhen with hlt | htoo | hrest | hnone
        · exact hlt
        · omega
        · omega
        · exact absurd ⟨rfl, hneeded ▸ hn⟩ (hnone ⟨n, none⟩ (by simp))
      exact hl.firstFit_taken (hsmall hlt) (by omega) hxs hn

end

theorem sample_listed : Listed sampleHeap [⟨REGION - 40, none⟩] := by
  obtain ⟨bs, hh, hn⟩ := heap_init_live sample_init
  obtain rfl := hh.single fun p => (congrFun hn p).symm
  exact hh.listed

theorem a_small_request_is_first_fit :
    ∃ h' p, kmalloc sampleHeap 100 = some (h', p) ∧ FirstFit sampleHeap [⟨REGION - 40, none⟩] 100 h' p := by
  obtain ⟨h', p, hcall, hiff⟩ := first_fit_iff sample_listed 100 (by decide)
  exact ⟨h', p, hcall, hiff.mpr (.inl (by decide))⟩

/-- A request of 4 GiB is answered with a block of 16 bytes, although there is only 1 MiB. -/
theorem a_huge_request_gets_a_small_block :
    ∃ h' p, kmalloc sampleHeap 0x100000000 = some (h', p) ∧ p = 0x100028 ∧ size h'.memory 0x100000 = 16 ∧
      (∀ b ∈ [(⟨REGION - 40, none⟩ : Block)], ¬ Suits (roundUp (0x100000000 + 8)) b) ∧
      ¬ FirstFit sampleHeap [⟨REGION - 40, none⟩] 0x100000000 h' p := by
  have hrun : (kmalloc sampleHeap 0x100000000).map (fun r => (r.2, size r.1.memory 0x100000)) =
      some (0x100028, 16) := by decide +kernel
  obtain ⟨⟨h', p⟩, hcall, hresult⟩ := Option.map_eq_some_iff.mp hrun
  obtain ⟨hp, hsize⟩ := Prod.mk.inj hresult
  have hnone : ∀ b ∈ [(⟨REGION - 40, none⟩ : Block)], ¬ Suits (roundUp (0x100000000 + 8)) b := by decide
  refine ⟨h', p, hcall, hp, hsize, hnone, fun hfit => ?_⟩
  have hzero := hfit.fails.mpr (.inr hnone)
  exact absurd (hzero.symm.trans hp) (by decide)

end mvh.heap
