-- What the writes of `heap.c` do to the headers of blocks: a new header, a block that is
-- given out or taken back, a free block that is split, and one that takes in the block
-- behind it.
import MvhKernel.HeapBlocks

open flat_memory

namespace mvh.heap

/-! ## Bytes outside of a header -/

section
variable (m : Mem) {a x : Nat}

theorem setMagic_outside (v : UInt32) (h : x < a ∨ a + 40 ≤ x) : setMagic m a v x = m x :=
  store32_outside m v (by omega)

theorem setFree_outside (v : UInt8) (h : x < a ∨ a + 40 ≤ x) : setFree m a v x = m x :=
  setByte_ne m _ v (by omega)

theorem setSize_outside (v : UInt64) (h : x < a ∨ a + 40 ≤ x) : setSize m a v x = m x :=
  store64_outside m v (by omega)

theorem setRequested_outside (v : UInt64) (h : x < a ∨ a + 40 ≤ x) : setRequested m a v x = m x :=
  store64_outside m v (by omega)

theorem setNext_outside (v : Nat) (h : x < a ∨ a + 40 ≤ x) : setNext m a v x = m x :=
  store64_outside m _ (by omega)

theorem setPrevious_outside (v : Nat) (h : x < a + 32 ∨ a + 40 ≤ x) : setPrevious m a v x = m x :=
  store64_outside m _ (by omega)

end

section
variable {m m' : Mem} {a : Nat}

theorem size_congr (h : ∀ x, a ≤ x → x < a + 40 → m' x = m x) : size m' a = size m a :=
  load64_congr fun i hi => h _ (by omega) (by omega)

theorem next_congr (h : ∀ x, a ≤ x → x < a + 40 → m' x = m x) : next m' a = next m a :=
  congrArg UInt64.toNat (load64_congr fun i hi => h _ (by omega) (by omega))

theorem next_lt (m : Mem) (a : Nat) : next m a < 2 ^ 64 := UInt64.toNat_lt _

end

theorem toNat_pointer {v : Nat} (h : v < 2 ^ 64) : (UInt64.ofNat v).toNat = v :=
  UInt64.toNat_ofNat_of_lt' h

/-! ## One field -/

section
variable {m : Mem} {a before after n : Nat} {b : Block}

theorem next_setNext {v : Nat} (h : v < 2 ^ 64) : next (setNext m a v) a = v := by
  unfold next setNext
  rw [load64_store64, toNat_pointer h]

theorem previous_setPrevious {v : Nat} (h : v < 2 ^ 64) : previous (setPrevious m a v) a = v := by
  unfold previous setPrevious
  rw [load64_store64, toNat_pointer h]

theorem HeaderAt.setSize (h : HeaderAt m a ⟨n, none⟩ before after) (v : UInt64) :
    HeaderAt (setSize m a v) a ⟨v.toNat, none⟩ before after where
  magic := by
    rw [← h.magic]
    exact load32_store64_ne _ _ (by omega)
  free := by
    rw [← h.free]
    exact store64_outside _ _ (by omega)
  size := congrArg UInt64.toNat (load64_store64 _ _ _)
  requested := by
    rw [← h.requested]
    exact congrArg UInt64.toNat (load64_store64_ne _ _ (by omega))
  next := by
    rw [← h.next]
    exact congrArg UInt64.toNat (load64_store64_ne _ _ (by omega))
  previous := by
    rw [← h.previous]
    exact congrArg UInt64.toNat (load64_store64_ne _ _ (by omega))
  canary hused := absurd rfl hused

theorem HeaderAt.setNext (h : HeaderAt m a ⟨n, none⟩ before after) {v : Nat} (hv : v < 2 ^ 64) :
    HeaderAt (setNext m a v) a ⟨n, none⟩ before v where
  magic := by
    rw [← h.magic]
    exact load32_store64_ne _ _ (by omega)
  free := by
    rw [← h.free]
    exact store64_outside _ _ (by omega)
  size := by
    rw [← h.size]
    exact congrArg UInt64.toNat (load64_store64_ne _ _ (by omega))
  requested := by
    rw [← h.requested]
    exact congrArg UInt64.toNat (load64_store64_ne _ _ (by omega))
  next := next_setNext hv
  previous := by
    rw [← h.previous]
    exact congrArg UInt64.toNat (load64_store64_ne _ _ (by omega))
  canary hused := absurd rfl hused

end

/-! ## A new header -/

def newHeader (m : Mem) (a : Nat) (size : UInt64) (next previous : Nat) : Mem :=
  let m := setMagic m a HEAP_MAGIC
  let m := setFree m a 1
  let m := setSize m a size
  let m := setRequested m a 0
  let m := setNext m a next
  setPrevious m a previous

section
variable (m : Mem) (a : Nat) (v : UInt64) {before after : Nat}

theorem newHeader_at (ha : after < 2 ^ 64) (hb : before < 2 ^ 64) :
    HeaderAt (newHeader m a v after before) a ⟨v.toNat, none⟩ before after where
  magic := by
    simp (disch := omega) only [magic, newHeader, setMagic, setFree, setSize, setRequested, setNext,
      setPrevious, load32_store64_ne]
    refine Eq.trans (load32_congr fun i hi => ?_) (load32_store32 m a HEAP_MAGIC)
    exact setByte_ne _ _ _ (by omega)
  free := by
    simp (disch := omega) only [isFree, newHeader, setFree, setSize, setRequested, setNext,
      setPrevious, store64_outside, setByte_same]
    rfl
  size := by
    simp (disch := omega) only [size, newHeader, setSize, setRequested, setNext, setPrevious,
      load64_store64_ne, load64_store64]
  requested := by
    simp (disch := omega) only [requested, newHeader, setRequested, setNext, setPrevious,
      load64_store64_ne, load64_store64]
    rfl
  next := by
    have h : next (newHeader m a v after before) a = (UInt64.ofNat after).toNat := by
      simp (disch := omega) only [next, newHeader, setNext, setPrevious, load64_store64_ne,
        load64_store64]
    rw [h, toNat_pointer ha]
  previous := previous_setPrevious hb
  canary hused := absurd rfl hused

theorem newHeader_outside {x : Nat} (h : x < a ∨ a + 40 ≤ x) :
    newHeader m a v after before x = m x := by
  unfold newHeader
  grind [setPrevious_outside, setNext_outside, setRequested_outside, setSize_outside, setFree_outside, setMagic_outside]

end

/-! ## The link back -/

/-- The block behind `a`, if there is one, gets `a` as the block before it. -/
def linkBack (m : Mem) (a : Nat) : Mem := if next m a ≠ 0 then setPrevious m (next m a) a else m

section
variable {m : Mem} {a after : Nat}

theorem linkBack_outside (hn : next m a = after) {x : Nat}
    (h : after = 0 ∨ x < after + 32 ∨ after + 40 ≤ x) : linkBack m a x = m x := by
  unfold linkBack
  grind [setPrevious_outside]

theorem previous_linkBack (hn : next m a = after) (ha : a < 2 ^ 64) (haf : after ≠ 0) :
    previous (linkBack m a) after = a := by
  unfold linkBack
  grind [previous_setPrevious]

end

/-! ## Given out and taken back -/

def giveOut (m : Mem) (a : Nat) (asked : UInt64) : Mem :=
  let m := setFree m a 0
  let m := setRequested m a asked
  store64 m (block_canary m a) (canary a)

def takeBack (m : Mem) (a : Nat) : Mem :=
  let m := setFree m a 1
  let m := fill m (a + 40) (size m a).toNat HEAP_POISON
  setRequested m a 0

theorem freeFits {n : Nat} (h : 16 ≤ n) : Block.Fits ⟨n, none⟩ := ⟨h, fun _ hu => by cases hu⟩

section
variable {m : Mem} {a before after n : Nat} {b : Block}

theorem giveOut_eq (h : HeaderAt m a ⟨n, none⟩ before after) (ak : UInt64) :
    giveOut m a ak =
      store64 (setRequested (setFree m a 0) a ak) (a + 40 + n - 8) (canary a) := by
  have hs : size (setRequested (setFree m a 0) a ak) a = size m a := by
    unfold size setRequested
    rw [load64_store64_ne _ _ (by omega)]
    exact load64_congr fun i hi => setByte_ne _ _ _ (by omega)
  unfold giveOut block_canary
  simp only
  rw [hs, h.size]

theorem giveOut_at (h : HeaderAt m a ⟨n, none⟩ before after) (hn : 16 ≤ n) (ak : UInt64) :
    HeaderAt (giveOut m a ak) a ⟨n, some ak.toNat⟩ before after := by
  rw [giveOut_eq h]
  have hl (k : Nat) (h1 : 8 ≤ k) (h2 : k + 8 ≤ 40) (h3 : k ≤ 8 ∨ 24 ≤ k) :
      load64 (store64 (setRequested (setFree m a 0) a ak) (a + 40 + n - 8) (canary a)) (a + k) =
        load64 m (a + k) := by
    rw [load64_store64_ne _ _ (by omega)]
    unfold setRequested
    rw [load64_store64_ne _ _ (by omega)]
    exact load64_congr fun i hi => setByte_ne _ _ _ (by omega)
  constructor
  · rw [← h.magic]
    unfold magic setRequested
    rw [load32_store64_ne _ _ (by omega), load32_store64_ne _ _ (by omega)]
    exact load32_congr fun i hi => setByte_ne _ _ _ (by omega)
  · unfold isFree setRequested setFree
    grind
  · rw [← h.size]
    exact congrArg UInt64.toNat (hl 8 (by omega) (by omega) (by omega))
  · unfold requested setRequested
    grind
  · rw [← h.next]
    exact congrArg UInt64.toNat (hl 24 (by omega) (by omega) (by omega))
  · rw [← h.previous]
    exact congrArg UInt64.toNat (hl 32 (by omega) (by omega) (by omega))
  simp

theorem giveOut_outside (h : HeaderAt m a ⟨n, none⟩ before after) (hn : 16 ≤ n) (ak : UInt64)
    {x : Nat} (hx : x < a ∨ a + 40 + n ≤ x) : giveOut m a ak x = m x := by
  rw [giveOut_eq h, store64_outside _ _ (by omega), setRequested_outside _ _ (by omega),
    setFree_outside _ _ (by omega)]

theorem takeBack_eq (h : HeaderAt m a b before after) :
    takeBack m a = setRequested (fill (setFree m a 1) (a + 40) b.size HEAP_POISON) a 0 := by
  have hs : size (setFree m a 1) a = size m a :=
    load64_congr fun i hi => setByte_ne _ _ _ (by omega)
  simp [hs, h.size, takeBack]

theorem takeBack_at (h : HeaderAt m a b before after) :
    HeaderAt (takeBack m a) a ⟨b.size, none⟩ before after := by
  rw [takeBack_eq h]
  have hl (k : Nat) (h1 : 8 ≤ k) (h2 : k + 8 ≤ 40) (h3 : k ≤ 8 ∨ 24 ≤ k) :
      load64 (setRequested (fill (setFree m a 1) (a + 40) b.size HEAP_POISON) a 0) (a + k) =
        load64 m (a + k) := by
    unfold setRequested
    rw [load64_store64_ne _ _ (by omega)]
    refine load64_congr fun i hi => ?_
    rw [fill_outside _ _ (by omega)]
    exact setByte_ne _ _ _ (by omega)
  constructor
  · rw [← h.magic]
    unfold magic setRequested
    rw [load32_store64_ne _ _ (by omega)]
    refine load32_congr fun i hi => ?_
    rw [fill_outside _ _ (by omega)]
    exact setByte_ne _ _ _ (by omega)
  · unfold isFree setRequested
    rw [store64_outside _ _ (by omega), fill_outside _ _ (by omega)]
    exact setByte_same _ _ _
  · exact (congrArg UInt64.toNat (hl 8 (by omega) (by omega) (by omega))).trans h.size
  · unfold requested setRequested
    rw [load64_store64]
    rfl
  · rw [← h.next]
    exact congrArg UInt64.toNat (hl 24 (by omega) (by omega) (by omega))
  · rw [← h.previous]
    exact congrArg UInt64.toNat (hl 32 (by omega) (by omega) (by omega))
  simp

theorem takeBack_outside (h : HeaderAt m a b before after) {x : Nat}
    (hx : x < a ∨ a + 40 + b.size ≤ x) : takeBack m a x = m x := by
  rw [takeBack_eq h, setRequested_outside _ _ (by omega), fill_outside _ _ (by omega),
    setFree_outside _ _ (by omega)]

end

/-! ## A free block is split -/

section
variable {m : Mem} {a before after n : Nat} {needed : UInt64}

theorem split_block_eq (m : Mem) (a : Nat) (needed : UInt64) :
    split_block m a needed =
      setSize (setNext (linkBack (newHeader m (a + 40 + needed.toNat) (size m a - needed - 40)
        (next m a) a) (a + 40 + needed.toNat)) a (a + 40 + needed.toNat)) a needed := by
  let split := a + 40 + needed.toNat
  have hs : size (setFree (setMagic m split HEAP_MAGIC) split 1) a = size m a := by
    grind [setFree_outside, setMagic_outside, size_congr]
  have hn : next (setRequested (setSize (setFree (setMagic m split HEAP_MAGIC) split 1) split
      (size m a - needed - 40)) split 0) a = next m a := by
    grind [setRequested_outside, setSize_outside, setFree_outside, setMagic_outside, next_congr]
  grind [split_block, linkBack, newHeader]

theorem split_at (h : HeaderAt m a ⟨n, none⟩ before after) (hr : needed.toNat + 56 ≤ n)
    (he : a + 40 + n ≤ 2 ^ 64) (haf : after = 0 ∨ a + 40 + n ≤ after) :
    HeaderAt (split_block m a needed) a ⟨needed.toNat, none⟩ before (a + 40 + needed.toNat) ∧
      HeaderAt (split_block m a needed) (a + 40 + needed.toNat) ⟨n - needed.toNat - 40, none⟩ a after ∧
      (after ≠ 0 → previous (split_block m a needed) after = a + 40 + needed.toNat) ∧
      ∀ x, (x < a ∨ a + 40 + n ≤ x) → (after = 0 ∨ x < after + 32 ∨ after + 40 ≤ x) →
        split_block m a needed x = m x := by
  let split := a + 40 + needed.toNat
  have hs : (size m a - needed - 40).toNat = n - needed.toNat - 40 := by
    have h1 := h.size
    grind
  rw [split_block_eq, h.next]
  have ha : after < 2 ^ 64 := h.next ▸ next_lt m a
  have hn := newHeader_at m split (size m a - needed - 40) ha (by omega : a < 2 ^ 64)
  rw [hs] at hn
  have hl {x : Nat} (hx : x < a + 40 + n) :
      linkBack (newHeader m split (size m a - needed - 40) after a) split x =
        newHeader m split (size m a - needed - 40) after a x :=
    linkBack_outside hn.next (by omega)
  have hb : HeaderAt (linkBack (newHeader m split (size m a - needed - 40) after a) split) a
      ⟨n, none⟩ before after := by
    refine h.congr (freeFits (by omega)) (fun x h1 h2 => ?_) (fun hu => absurd rfl hu)
    grind [newHeader_outside]
  refine ⟨(hb.setNext (by omega)).setSize needed, ?_, ?_, ?_⟩
  · refine hn.congr (freeFits (by omega)) (fun x h1 h2 => ?_) (fun hu => absurd rfl hu)
    grind [setSize_outside, setNext_outside]
  · intro hne
    refine Eq.trans (congrArg UInt64.toNat (load64_congr fun i hi => ?_))
      (previous_linkBack hn.next (by omega) hne)
    grind [setSize_outside, setNext_outside]
  · intro x hx hls
    rw [setSize_outside _ _ (by omega), setNext_outside _ _ (by omega),
      linkBack_outside hn.next hls, newHeader_outside _ _ _ (by omega)]

end

/-! ## A free block takes in the next one -/

section
variable {m : Mem} {a f before after n : Nat} {c : Block}

theorem absorb_at (h : HeaderAt m a ⟨n, none⟩ before f) (hf : HeaderAt m f c a after)
    (hp : f = a + 40 + n) (hn : 16 ≤ n) (he : f + 40 + c.size < 2 ^ 64)
    (haf : after = 0 ∨ f + 40 ≤ after) :
    HeaderAt (absorb m a f) a ⟨n + 40 + c.size, none⟩ before after ∧
      (after ≠ 0 → previous (absorb m a f) after = a) ∧
      ∀ x, (x < a + 8 ∨ a + 40 ≤ x) → (after = 0 ∨ x < after + 32 ∨ after + 40 ≤ x) →
        absorb m a f x = m x := by
  have hsm : (size m a + (40 + size m f)).toNat = n + 40 + c.size := by
    have h1 := h.size
    simp only at h1
    have h40 : (40 : UInt64).toNat = 40 := rfl
    rw [UInt64.toNat_add, UInt64.toNat_add, h1, hf.size, h40]
    omega
  have hnx : next (setSize m a (size m a + (40 + size m f))) f = after := by
    rw [← hf.next]
    exact next_congr fun x h1 h2 => setSize_outside _ _ (by omega)
  have hs := h.setSize (size m a + (40 + size m f))
  rw [hsm] at hs
  have ha : after < 2 ^ 64 := hf.next ▸ next_lt m f
  have hl := hs.setNext ha
  have heq : absorb m a f = linkBack (setNext (setSize m a (size m a + (40 + size m f))) a after) a := by
    simp [hnx, absorb, linkBack]
  rw [heq]
  refine ⟨hl.congr (freeFits (by omega)) (fun x h1 h2 => ?_) (fun hu => absurd rfl hu), ?_, ?_⟩
  · exact linkBack_outside hl.next (by omega)
  · exact fun hne => previous_linkBack hl.next (by omega) hne
  · intro x hx hls
    rw [linkBack_outside hl.next hls]
    unfold setNext setSize
    grind

end

end mvh.heap
