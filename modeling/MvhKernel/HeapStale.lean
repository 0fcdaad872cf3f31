-- Pointers that were freed: the header in front of them stays in memory, marked as free,
-- however the blocks around it are merged.
import MvhKernel.HeapRuns

open flat_memory runs

namespace mvh.heap

/-- What `kfree` and `krealloc` look at: the header says that the block is free. -/
structure Marked (m : Mem) (block : Nat) : Prop where
  magic : magic m block = HEAP_MAGIC
  free : isFree m block ≠ 0

theorem Marked.congr {m m' : Mem} {block : Nat} (h : Marked m block)
    (hs : ∀ i < 8, m' (block + i) = m (block + i)) : Marked m' block where
  magic := by
    rw [← h.magic]
    exact load32_congr fun i hi => hs i (by omega)
  free := by
    have hb : isFree m' block = isFree m block := hs 4 (by omega)
    rw [hb]
    exact h.free

theorem Marked.kfree {h : Heap} {p : Nat} (hm : Marked h.memory (p - 40)) (hp : p ≠ 0) :
    kfree h p = some { h with heap_invalid_frees := h.heap_invalid_frees + 1 } := by
  unfold heap.kfree
  rw [if_neg hp]
  exact if_pos (.inr hm.free)

theorem Marked.krealloc {h : Heap} {p : Nat} (hm : Marked h.memory (p - 40)) (hp : p ≠ 0) {s : UInt64}
    (hs : s ≠ 0) :
    krealloc h p s = some ({ h with heap_invalid_frees := h.heap_invalid_frees + 1 }, 0) := by
  unfold heap.krealloc
  rw [if_neg hp, if_neg hs]
  exact if_pos (.inr hm.free)

/-! ## Where the header lies -/

/-- The pointer belongs to a free block of the list, or to a header that now lies inside one. -/
def InFree (a : Nat) (bs : List Block) (p : Nat) : Prop :=
  ∃ xs b ys, bs = xs ++ b :: ys ∧ b.used = none ∧
    (p = a + span xs + 40 ∨ a + span xs + 80 ≤ p ∧ p ≤ a + span xs + 40 + b.size)

section
variable {a p x : Nat} {xs ys bs : List Block}

theorem spared_behind (h : a + span xs ≤ x) : Spared a xs x := by
  induction xs generalizing a with
  | nil => trivial
  | cons b xs ih =>
    rw [span_cons] at h
    exact ⟨.inr (by omega), ih (by omega)⟩

theorem spared_before (h : x < a + 8) : Spared a ys x := by
  induction ys generalizing a with
  | nil => trivial
  | cons b ys ih => exact ⟨.inl h, ih (by omega)⟩

theorem InFree.spared (h : InFree a bs p) {i : Nat} (hi : i < 8) : Spared a bs (p - 40 + i) := by
  obtain ⟨xs, b, ys, rfl, -, hp⟩ := h
  refine spared_append.mpr ⟨spared_behind (by omega), ?_, spared_before (by omega)⟩
  omega

theorem InFree.left (h : InFree a xs p) (ys : List Block) : InFree a (xs ++ ys) p := by
  obtain ⟨us, b, vs, rfl, hf, hp⟩ := h
  exact ⟨us, b, vs ++ ys, by simp, hf, hp⟩

theorem InFree.right (xs : List Block) (h : InFree (a + span xs) ys p) : InFree a (xs ++ ys) p := by
  obtain ⟨us, b, vs, rfl, hf, hp⟩ := h
  refine ⟨xs ++ us, b, vs, by simp, hf, ?_⟩
  rw [span_append]
  omega

theorem inFree_append (h : InFree a (xs ++ ys) p) : InFree a xs p ∨ InFree (a + span xs) ys p := by
  obtain ⟨us, b, vs, hbs, hf, hp⟩ := h
  rcases List.append_eq_append_iff.mp hbs with ⟨mid, rfl, rfl⟩ | ⟨mid, rfl, hr⟩
  · rw [span_append] at hp
    exact .inr ⟨mid, b, vs, rfl, hf, by omega⟩
  · rcases mid with _ | ⟨d, mid⟩
    · rw [List.nil_append] at hr
      rw [List.append_nil]
      exact .inr ⟨[], b, vs, hr.symm, hf, by simpa using hp⟩
    · obtain ⟨rfl, rfl⟩ := List.cons.inj hr
      exact .inl ⟨us, b, mid, rfl, hf, hp⟩

theorem InFree.bounds (h : InFree a bs p) : (p = a + 40 ∨ a + 80 ≤ p) ∧ p ≤ a + span bs := by
  obtain ⟨xs, b, ys, rfl, -, hp⟩ := h
  simp only [span_append, span_cons]
  rcases xs with _ | ⟨c, xs⟩
  · grind [span_nil]
  grind [span_cons]

theorem InFree.around {ls rs : List Block} {c : Block} (h : InFree a (ls ++ c :: rs) p) (hc : c.used ≠ none) :
    InFree a ls p ∨ InFree (a + span ls + 40 + c.size) rs p := by
  rcases inFree_append h with h | h
  · exact .inl h
  have h : InFree (a + span ls) ([c] ++ rs) p := h
  rcases inFree_append h with ⟨us, b, vs, hs, hf, -⟩ | h
  · have hm : b ∈ [c] := by rw [hs]; simp
    grind
  grind [span_cons, span_nil, Nat.add_assoc]

theorem inFree_of_bounds {n : Nat} (xs ys : List Block)
    (h : (p = a + span xs + 40 ∨ a + span xs + 80 ≤ p) ∧ p ≤ a + span xs + 40 + n) :
    InFree a (xs ++ [⟨n, none⟩] ++ ys) p :=
  ⟨xs, ⟨n, none⟩, ys, by simp, rfl, by simp only; omega⟩

end

/-! ## Frees -/

/-- The heap has these allocations, and the pointer is one that was freed. -/
def Stale (h : Heap) (live : Nat → Option Nat) (p : Nat) : Prop :=
  ∃ bs, Holds h bs ∧ live = payloads h.heap_first bs ∧ InFree h.heap_first bs p ∧ Marked h.memory (p - 40)

section
variable {h : Heap} {live : Nat → Option Nat} {p q n : Nat}

theorem Live.stale (hl : Live h live) (hp : live p = some n) :
    ∃ h', kfree h p = some h' ∧ Stale h' (Function.update live p none) p := by
  obtain ⟨bs, hh, rfl⟩ := hl
  obtain ⟨xs, b, ys, rfl, rfl, hu⟩ := payloads_block hp
  have hhd := takeBack_at hh.seg.middle
  obtain ⟨left, l, r, right, h', rfl, rfl, hc, hf, hh', hlv, -, hs⟩ := hh.kfree hu
  refine ⟨h', hc, _, hh', ?_, ?_, ?_⟩
  · rw [hf]
    exact hlv.symm
  · rw [hf]
    apply inFree_of_bounds
    rcases l with _ | ⟨c, l⟩
    · simp
    grind [span_append, span_cons]
  · rw [Nat.add_sub_cancel]
    have hm : Marked (takeBack h.memory (h.heap_first + span (left ++ l)))
        (h.heap_first + span (left ++ l)) := ⟨hhd.magic, by rw [hhd.free, if_pos rfl]; decide⟩
    refine hm.congr fun i hi => hs _ (spared_append.mpr ⟨spared_behind (by omega), ?_, ?_⟩)
    · exact .inl (by omega)
    · exact spared_before (by omega)

theorem Stale.kfree (hs : Stale h live p) (hq : live q = some n) :
    ∃ h', kfree h q = some h' ∧ Stale h' (Function.update live q none) p := by
  obtain ⟨bs, hh, rfl, hin, hmr⟩ := hs
  obtain ⟨xs, b, ys, rfl, rfl, hu⟩ := payloads_block hq
  have hhd := hh.seg.middle
  obtain ⟨left, l, r, right, h', rfl, rfl, hc, hf, hh', hl, -, hsp⟩ := hh.kfree hu
  have ha := hin.around (by rw [hu]; simp)
  refine ⟨h', hc, _, hh', ?_, ?_, ?_⟩
  · rw [hf]
    exact hl.symm
  · rw [hf]
    rcases ha with hb | hbh
    · rcases inFree_append hb with hlf | hm
      · rw [List.append_assoc]
        exact hlf.left _
      · have := hm.bounds
        exact inFree_of_bounds left right (by omega)
    · rcases inFree_append hbh with hm | hr
      · have := hm.bounds
        grind [span_append, inFree_of_bounds]
      grind [span_append, span_cons, span_nil, InFree.right]
  · refine hmr.congr fun i hi => (hsp _ (hin.spared hi)).trans (takeBack_outside hhd ?_)
    rcases ha with hb | hbh
    · have := hb.bounds
      omega
    · have := hbh.bounds
      omega

theorem Stale.ne_zero (hs : Stale h live p) : p ≠ 0 := by
  obtain ⟨bs, hh, -, hi, -⟩ := hs
  have := hi.bounds
  omega

end

/-! ## Runs -/

def frees (pointers : List Nat) : List Event := pointers.map Event.kfree

theorem stale_run {w : World} {p : Nat} (hs : Stale w.state w.live p) {o : List Nat}
    (ha : Each step Allowed (some w) (frees o)) :
    ∃ v, run step (some w) (frees o) = some v ∧ Stale v.state v.live p := by
  induction o generalizing w with
  | nil => exact ⟨w, rfl, hs⟩
  | cons q o ih =>
    obtain ⟨hf, hr⟩ := ha
    have hnx : ∃ v, step (some w) (.kfree q) = some v ∧ Stale v.state v.live p := by
      rcases hf w rfl with rfl | hl
      · have hnl : w.live 0 = none := Live.null ⟨_, hs.choose_spec.1, hs.choose_spec.2.1⟩
        simpa [step, World.call, kfree, ← hnl, Function.update_eq_self] using hs
      · obtain ⟨n, hn⟩ := Option.ne_none_iff_exists'.mp hl
        obtain ⟨h', hc, hs'⟩ := hs.kfree hn
        refine ⟨⟨h', Function.update w.live q none⟩, ?_, hs'⟩
        rw [step, Option.bind_some, World.call, hc]
        rfl
    obtain ⟨v, hst, hv⟩ := hnx
    change Each step Allowed (step (some w) (.kfree q)) (frees o) at hr
    change ∃ u, run step (step (some w) (.kfree q)) (frees o) = some u ∧ _
    grind

/-- In every state of a run, for every live pointer: after it is freed and others are freed behind it,
in any order, a second `kfree` or a `krealloc` of it only counts an invalid free. -/
theorem a_second_free_is_harmless (h h0 : Heap) (pages : Option Pages) (unmap map : Nat → Int)
    (events : List Event) (hinit : heap_init h pages unmap map = (h0, 0))
    (hallowed : Each step Allowed (some ⟨h0, fun _ => none⟩) events) (w : World)
    (hrun : run step (some ⟨h0, fun _ => none⟩) events = some w) (p n : Nat) (hp : w.live p = some n)
    (others : List Nat)
    (hothers : Each step Allowed (step (some w) (.kfree p)) (frees others)) :
    ∃ v, run step (some w) (frees (p :: others)) = some v ∧
      kfree v.state p = some { v.state with heap_invalid_frees := v.state.heap_invalid_frees + 1 } ∧
      ∀ size : UInt64, size ≠ 0 → krealloc v.state p size =
        some ({ v.state with heap_invalid_frees := v.state.heap_invalid_frees + 1 }, 0) := by
  obtain ⟨h', hcall, hs⟩ := (heap_run_live hinit hallowed hrun).1.stale hp
  have hstep : step (some w) (.kfree p) = some ⟨h', Function.update w.live p none⟩ := by
    rw [step, Option.bind_some, World.call, hcall]
    rfl
  rw [hstep] at hothers
  obtain ⟨v, hv, hstale⟩ := stale_run hs hothers
  have hnull := hstale.ne_zero
  obtain ⟨-, -, -, -, hmarked⟩ := hstale
  refine ⟨v, ?_, hmarked.kfree hnull, fun size hsize => hmarked.krealloc hnull hsize⟩
  change run step (step (some w) (.kfree p)) (frees others) = some v
  rw [hstep]
  exact hv

/-- Two blocks side by side are freed, the first one twice. -/
theorem the_first_of_two_blocks_is_freed_twice :
    ∃ w v, run step (some ⟨sampleHeap, fun _ => none⟩) [.kmalloc 100, .kmalloc 200] = some w ∧
      run step (some w) (frees [0x100028, 0x1000C0]) = some v ∧
      kfree v.state 0x100028 =
        some { v.state with heap_invalid_frees := v.state.heap_invalid_frees + 1 } := by
  have hlive : ((run step (some ⟨sampleHeap, fun _ => none⟩) [.kmalloc 100, .kmalloc 200]).map
      fun w => (w.live 0x100028, (step (some w) (.kfree 0x100028)).map (·.live 0x1000C0))) =
        some (some 100, some (some 200)) := by decide +kernel
  obtain ⟨w, hrun, hpair⟩ := Option.map_eq_some_iff.mp hlive
  obtain ⟨hp, hother⟩ := Prod.mk.inj hpair
  have hallowed : Each step Allowed (some ⟨sampleHeap, fun _ => none⟩) [.kmalloc 100, .kmalloc 200] :=
    ⟨fun _ _ => (by decide : (100 : UInt64).toNat < 2 ^ 32 - 24),
      fun _ _ => (by decide : (200 : UInt64).toNat < 2 ^ 32 - 24), trivial⟩
  have hothers : Each step Allowed (step (some w) (.kfree 0x100028)) (frees [0x1000C0]) := by
    refine ⟨fun u hu => .inr ?_, trivial⟩
    rw [hu, Option.map_some, Option.some.injEq] at hother
    rw [hother]
    simp
  obtain ⟨v, hv, hfree, -⟩ := a_second_free_is_harmless _ sampleHeap (some samplePages) _ _ _ sample_init
    hallowed w hrun 0x100028 100 hp [0x1000C0] hothers
  exact ⟨w, v, hrun, hv, hfree⟩

end mvh.heap
