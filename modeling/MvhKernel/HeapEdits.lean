-- Edits of the list of blocks: some blocks in the middle are replaced by others that take
-- the same bytes.
import MvhKernel.HeapHeaders

open flat_memory

namespace mvh.heap

/-! ## A segment with a new neighbour -/

section
variable {m m' : Mem} {a before newBefore after : Nat} {bs : List Block}

theorem Seg.relink (h : Seg m before a bs after) (hf : ∀ b ∈ bs, b.Fits)
    (hs : ∀ x, a ≤ x → x < a + 32 ∨ a + 40 ≤ x → m' x = m x)
    (hp : bs ≠ [] → previous m' a = newBefore) : Seg m' newBefore a bs after := by
  cases bs with
  | nil => trivial
  | cons b bs =>
    have hsz := (hf b List.mem_cons_self).size
    refine ⟨h.1.relink (hf b List.mem_cons_self) ?_ ?_ (hp (by simp)), ?_⟩
    · exact fun x h1 h2 => hs x h1 (by omega)
    · grind
    · refine Seg.congr h.2 (fun c hc => hf c (List.mem_cons_of_mem _ hc)) fun x h1 h2 => ?_
      exact hs x (by omega) (by omega)

end

/-! ## Edits -/

/-- The blocks `old` between `xs` and `ys` become `new`, and nothing else is written but the link
back of the first block of `ys`. -/
structure Edit (m m' : Mem) (a : Nat) (xs old new ys : List Block) : Prop where
  seg : Seg m' 0 a (xs ++ new ++ ys) 0
  bytes : span new = span old
  outside : ∀ x, (x < a + span xs ∨ a + span xs + span old ≤ x) →
    (ys = [] ∨ x < a + span xs + span old + 32 ∨ a + span xs + span old + 40 ≤ x) → m' x = m x

section
variable {m m' : Mem} {a : Nat} {xs old new ys : List Block}

theorem headOr_of_ne {bs : List Block} (h : bs ≠ []) (a after : Nat) : headOr a bs after = a := by
  unfold headOr
  rw [if_neg h]

theorem edit (h : Seg m 0 a (xs ++ old ++ ys) 0) (hf : ∀ b ∈ xs ++ old ++ ys, b.Fits)
    (hs : span new = span old) (hold : old ≠ []) (hn : new ≠ [])
    (hm : Seg m' (lastOr 0 a xs) (a + span xs) new (headOr (a + span xs + span old) ys 0))
    (hp : ys ≠ [] →
      previous m' (a + span xs + span old) = lastOr (lastOr 0 a xs) (a + span xs) new)
    (ho : ∀ x, (x < a + span xs ∨ a + span xs + span old ≤ x) →
      (ys = [] ∨ x < a + span xs + span old + 32 ∨ a + span xs + span old + 40 ≤ x) → m' x = m x) :
    Edit m m' a xs old new ys := by
  refine ⟨?_, hs, ho⟩
  rw [seg_append, seg_append, span_append, ← Nat.add_assoc, headOr_of_ne hold] at h
  obtain ⟨⟨hl, -⟩, hr⟩ := h
  rw [seg_append, seg_append, span_append, ← Nat.add_assoc, headOr_of_ne hn, lastOr_append, hs]
  refine ⟨⟨?_, hm⟩, ?_⟩
  · refine hl.congr (fun b hb => hf b (by simp [hb])) fun x h1 h2 => ?_
    exact ho x (by omega) (by omega)
  · refine hr.relink (fun b hb => hf b (by simp [hb])) (fun x h1 h2 => ?_) hp
    exact ho x (by omega) (by omega)

end

theorem headOr_cases (a : Nat) (bs : List Block) :
    (bs = [] ∧ headOr a bs 0 = 0) ∨ (bs ≠ [] ∧ headOr a bs 0 = a) := by
  cases bs with
  | nil => exact Or.inl ⟨rfl, rfl⟩
  | cons b bs => exact Or.inr ⟨by simp, rfl⟩

theorem Seg.middle {m : Mem} {a : Nat} {xs ys : List Block} {b : Block}
    (h : Seg m 0 a (xs ++ b :: ys) 0) :
    HeaderAt m (a + span xs) b (lastOr 0 a xs) (headOr (a + span xs + 40 + b.size) ys 0) :=
  (seg_append.mp h).2.1

theorem edit_one {m m' : Mem} {a : Nat} {xs ys : List Block} {b c : Block}
    (h : Seg m 0 a (xs ++ b :: ys) 0) (hf : ∀ c ∈ xs ++ b :: ys, c.Fits) (hsz : c.size = b.size)
    (hh : HeaderAt m' (a + span xs) c (lastOr 0 a xs) (headOr (a + span xs + 40 + b.size) ys 0))
    (ho : ∀ x, x < a + span xs ∨ a + span xs + 40 + b.size ≤ x → m' x = m x) :
    Edit m m' a xs [b] [c] ys := by
  have hs : span [b] = 40 + b.size := by simp
  have hsg : Seg m 0 a (xs ++ [b] ++ ys) 0 := by simpa using h
  have hr := (seg_append.mp hsg).2
  refine edit hsg (by simpa using hf) (by simp [hsz]) (by simp) (by simp) ?_ ?_ ?_
  · rw [hs, ← Nat.add_assoc]
    exact ⟨hsz.symm ▸ hh, trivial⟩
  · intro hys
    obtain ⟨d, ds, rfl⟩ := List.exists_cons_of_ne_nil hys
    have hold := hr.1.previous
    rw [span_append, ← Nat.add_assoc, lastOr_concat, hs] at hold
    rw [hs]
    refine Eq.trans (congrArg UInt64.toNat (load64_congr fun i hi => ?_)) hold
    exact ho _ (by omega)
  grind

/-! ## The edits of the calls -/

/-- What becomes of a free block of size `n`: a block of the size that is needed and the rest, or
the whole block when the rest is too small. -/
def carve (n asked needed : Nat) : List Block :=
  if needed + 56 ≤ n then [⟨needed, some asked⟩, ⟨n - needed - 40, none⟩] else [⟨n, some asked⟩]

section
variable {m : Mem} {a n : Nat} {xs ys : List Block} {asked needed : UInt64}

def taken (m : Mem) (block : Nat) (asked needed : UInt64) : Mem :=
  giveOut (if size m block ≥ needed + 40 + 16 then split_block m block needed else m) block asked

theorem take_edit (h : Seg m 0 a (xs ++ ⟨n, none⟩ :: ys) 0)
    (hf : ∀ b ∈ xs ++ ⟨n, none⟩ :: ys, b.Fits) (he : a + span xs + 40 + n < 2 ^ 64)
    (hlw : 16 ≤ needed.toNat) (hhg : needed.toNat < 2 ^ 32) :
    Edit m (taken m (a + span xs) asked needed) a xs [⟨n, none⟩]
      (carve n asked.toNat needed.toNat) ys := by
  have hh := h.middle
  have hn : 16 ≤ n := (hf ⟨n, none⟩ (by simp)).size
  generalize ha : headOr (a + span xs + 40 + (⟨n, none⟩ : Block).size) ys 0 = after at hh
  have hp := headOr_cases (a + span xs + 40 + n) ys
  rw [ha] at hp
  have hs : span [⟨n, none⟩] = 40 + n := by simp
  have hsz : (size m (a + span xs) ≥ needed + 40 + 16) ↔ needed.toNat + 56 ≤ n := by
    have h40 : (40 : UInt64).toNat = 40 := rfl
    have h16 : (16 : UInt64).toNat = 16 := rfl
    have h1 := hh.size
    grind
  have hsg : Seg m 0 a (xs ++ [⟨n, none⟩] ++ ys) 0 := by simpa using h
  have hf' : ∀ b ∈ xs ++ [⟨n, none⟩] ++ ys, b.Fits := by simpa using hf
  unfold taken carve
  by_cases hr : needed.toNat + 56 ≤ n
  · rw [if_pos (hsz.mpr hr), if_pos hr]
    obtain ⟨hfr, hrs, hb, ho⟩ := split_at hh hr (by omega) (by omega)
    have hg := giveOut_at hfr hlw asked
    have hk {x : Nat} := giveOut_outside hfr hlw asked (x := x)
    refine edit hsg hf' (by simp only [span_cons, span_nil]; omega) (by simp) (by simp) ?_ ?_ ?_
    · rw [hs, ← Nat.add_assoc, ha]
      refine ⟨hg, hrs.congr (freeFits (by omega)) (fun x h1 h2 => hk (by omega)) ?_, trivial⟩
      exact fun hu => absurd rfl hu
    · intro hys
      rw [hs]
      have hat : after = a + span xs + (40 + n) := by grind
      rw [← hat]
      refine Eq.trans (congrArg UInt64.toNat (load64_congr fun i hi => ?_)) (hb (by omega))
      exact hk (by omega)
    · intro x hx hl
      rw [hs] at hx hl
      rw [hk (by omega)]
      refine ho x (by omega) ?_
      rcases hp with ⟨-, hat⟩ | ⟨hys, hat⟩
      · exact Or.inl hat
      · have := hl.resolve_left hys
        omega
  · rw [if_neg (fun hge => hr (hsz.mp hge)), if_neg hr]
    exact edit_one h hf rfl (ha ▸ giveOut_at hh hn asked)
      fun x hx => giveOut_outside hh hn asked hx

theorem release_edit {b : Block} (h : Seg m 0 a (xs ++ b :: ys) 0)
    (hf : ∀ c ∈ xs ++ b :: ys, c.Fits) :
    Edit m (takeBack m (a + span xs)) a xs [b] [⟨b.size, none⟩] ys :=
  edit_one h hf rfl (takeBack_at h.middle) fun _ hx => takeBack_outside h.middle hx

theorem absorb_edit {c : Block} (h : Seg m 0 a (xs ++ ⟨n, none⟩ :: c :: ys) 0)
    (hft : ∀ b ∈ xs ++ ⟨n, none⟩ :: c :: ys, b.Fits)
    (he : a + span xs + 40 + n + 40 + c.size < 2 ^ 64) :
    Edit m (absorb m (a + span xs) (a + span xs + 40 + n)) a xs [⟨n, none⟩, c]
      [⟨n + 40 + c.size, none⟩] ys := by
  have hn : 16 ≤ n := (hft ⟨n, none⟩ (by simp)).size
  obtain ⟨hf, hs, -⟩ := (seg_append.mp h).2
  rw [headOr_cons] at hf
  simp only at hf hs
  generalize ha : headOr (a + span xs + 40 + n + 40 + c.size) ys 0 = after at hs
  have hp := headOr_cases (a + span xs + 40 + n + 40 + c.size) ys
  rw [ha] at hp
  have hsp : span [⟨n, none⟩, c] = 40 + n + 40 + c.size := by
    simp only [span_cons, span_nil]
    omega
  have hsm : a + span xs + (40 + n + 40 + c.size) = a + span xs + 40 + n + 40 + c.size := by omega
  obtain ⟨hm, hb, ho⟩ := absorb_at hf hs rfl hn (by omega) (by omega)
  refine edit (by simpa using h) (by simpa using hft) ?_ (by simp) (by simp) ?_ ?_ ?_
  · simp only [span_cons, span_nil]
    omega
  · rw [hsp, hsm, ha]
    exact ⟨hm, trivial⟩
  · intro hys
    rcases hp with ⟨hnl, -⟩ | ⟨-, hat⟩
    · exact absurd hnl hys
    · rw [hsp, hsm, ← hat]
      exact hb (by omega)
  · grind

end

end mvh.heap
