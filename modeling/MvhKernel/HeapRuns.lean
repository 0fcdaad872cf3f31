-- Runs of the heap: after `heap_init` every sequence of calls, with clients that write
-- into their allocations only, leaves blocks that tile the region, and allocations that
-- are apart and keep their bytes.
import MvhKernel.HeapCalls
import MvhKernel.Ranges
import MvhKernel.Runs

open flat_memory ranges runs

namespace mvh.heap

/-! ## The blocks that a walk reaches -/

/-- The blocks from one on, along the links. -/
def walk (m : Mem) : Nat → Nat → Option (List Nat)
  | 0, _ => none
  | fuel + 1, block => if block = 0 then some [] else (walk m fuel (next m block)).map (block :: ·)

def places (a : Nat) : List Block → List Nat
  | [] => []
  | b :: bs => a :: places (a + 40 + b.size) bs

/-- The second block comes right behind the first one, they are linked both ways, and not both of
them are free. -/
structure Follows (m : Mem) (a b : Nat) : Prop where
  tile : a + 40 + (size m a).toNat = b
  next : next m a = b
  previous : previous m b = a
  apart : isFree m a = 0 ∨ isFree m b = 0

section
variable {m : Mem} {before a fuel : Nat} {bs : List Block}

theorem walk_places (hs : Seg m before a bs 0) (ha : 0 < a) (hf : bs.length < fuel) :
    walk m fuel (headOr a bs 0) = some (places a bs) := by
  induction bs generalizing before a fuel with
  | nil =>
    obtain ⟨fuel, rfl⟩ : ∃ k, fuel = k + 1 := ⟨fuel - 1, by simp at hf; omega⟩
    rfl
  | cons b bs ih =>
    obtain ⟨fuel, rfl⟩ : ∃ k, fuel = k + 1 := ⟨fuel - 1, by simp at hf; omega⟩
    simp only [List.length_cons] at hf
    rw [headOr_cons, walk, if_neg (by omega), hs.1.next, ih hs.2 (by omega) (by omega)]
    rfl

theorem HeaderAt.free_eq_zero {after : Nat} {b : Block} (h : HeaderAt m a b before after) :
    isFree m a = 0 ↔ b.used ≠ none := by
  rw [h.free]
  simp

theorem places_chain (hs : Seg m before a bs 0) (hc : bs.IsChain NotBothFree) :
    (places a bs).IsChain (Follows m) := by
  induction bs generalizing before a with
  | nil => exact List.isChain_nil
  | cons b bs ih =>
    cases bs with
    | nil => exact List.isChain_singleton a
    | cons c bs =>
      obtain ⟨ha, ht⟩ := List.isChain_cons_cons.mp hc
      refine List.isChain_cons_cons.mpr ⟨⟨?_, hs.1.next, hs.2.1.previous, ?_⟩, ih hs.2 ht⟩
      · rw [hs.1.size]
      · exact ha.imp hs.1.free_eq_zero.mpr hs.2.1.free_eq_zero.mpr

theorem places_last (hs : Seg m before a bs 0) :
    ∀ c ∈ (places a bs).getLast?, c + 40 + (size m c).toNat = a + span bs := by
  induction bs generalizing before a with
  | nil => simp [places]
  | cons b bs ih =>
    cases bs with
    | nil =>
      intro c hc
      obtain rfl : a = c := by simpa [places] using hc
      rw [hs.1.size, span_cons, span_nil]
      omega
    | cons d bs =>
      intro c hc
      have ht := ih hs.2 c (by simpa [places] using hc)
      rw [ht, span_cons b]
      omega

theorem places_used (hs : Seg m before a bs 0) :
    (((places a bs).filter (isFree m · = 0)).map fun c => (size m c).toNat).sum = usedBytes bs ∧
      ((places a bs).filter (isFree m · = 0)).length = usedCount bs := by
  induction bs generalizing before a with
  | nil => exact ⟨rfl, rfl⟩
  | cons b bs ih =>
    obtain ⟨hby, hcn⟩ := ih hs.2
    have hb : usedBytes (b :: bs) = (if b.used = none then 0 else b.size) + usedBytes bs := rfl
    have hc : usedCount (b :: bs) = (if b.used = none then 0 else 1) + usedCount bs := rfl
    rw [hb, hc, places, List.filter_cons, ← hby, ← hcn]
    by_cases hu : b.used = none
    · have hf : ¬ isFree m a = 0 := fun h0 => hs.1.free_eq_zero.mp h0 hu
      grind
    · have hf : isFree m a = 0 := hs.1.free_eq_zero.mpr hu
      rw [if_pos (by simpa using hf), if_neg hu, if_neg hu, List.map_cons, List.sum_cons,
        List.length_cons, hs.1.size]
      omega

theorem validate_places {start blocks : Nat} (hseg : Seg m before a bs 0) (hfits : ∀ b ∈ bs, b.Fits)
    (hlow : start ≤ a) (hpos : 0 < a) (hhigh : a + span bs = start + REGION)
    (hfuel : bs.length < fuel) (hblocks : blocks + bs.length ≤ 65536) :
    heap_validate_loop m start fuel (headOr a bs 0) before blocks = some 0 := by
  induction bs generalizing before a fuel blocks with
  | nil =>
    obtain ⟨fuel, rfl⟩ : ∃ k, fuel = k + 1 := ⟨fuel - 1, by simp at hfuel; omega⟩
    rfl
  | cons b bs ih =>
    obtain ⟨fuel, rfl⟩ : ∃ k, fuel = k + 1 := ⟨fuel - 1, by simp at hfuel; omega⟩
    simp only [List.length_cons] at hfuel hblocks
    simp only [span_cons] at hhigh
    obtain ⟨hheader, htail⟩ := hseg
    have hend : a + 40 + b.size ≤ start + REGION := by omega
    have hplace := headOr_cases (a + 40 + b.size) bs
    rw [headOr_cons, heap_validate_loop]
    simp only
    rw [if_neg (by omega), if_neg, hheader.size, hheader.next, if_neg, if_neg, if_neg]
    · grind
    · rintro ⟨hfree, hcanary⟩
      refine hcanary ?_
      unfold block_canary
      rw [hheader.size]
      exact hheader.canary (hheader.free_eq_zero.mp hfree)
    · omega
    · omega
    · rintro (h1 | h1 | h1 | h1)
      · omega
      · omega
      · exact h1 hheader.magic
      · exact h1 hheader.previous

end

/-! ## The machine -/

/-- The heap, and the allocations of the clients with the sizes they have asked for. -/
structure World where
  state : Heap
  live : Nat → Option Nat

inductive Event
  | kmalloc (size : UInt64)
  | kcalloc (count size : UInt64)
  | krealloc (address : Nat) (size : UInt64)
  | kfree (address : Nat)
  | write (address : Nat) (value : UInt8)

def given (live : Nat → Option Nat) (p n : Nat) : Nat → Option Nat :=
  if p = 0 then live else Function.update live p (some n)

/-- The state after a call and the pointer it returns. -/
def World.call (w : World) : Event → Option (World × Nat)
  | .kmalloc size =>
    (heap.kmalloc w.state size).map fun (h, p) => (⟨h, given w.live p size.toNat⟩, p)
  | .kcalloc count size =>
    (heap.kcalloc w.state count size).map fun (h, p) =>
      (⟨h, given w.live p (count.toNat * size.toNat)⟩, p)
  | .krealloc address size =>
    (heap.krealloc w.state address size).map fun (h, p) =>
      -- the old allocation is gone when its size was 0 or it has moved
      let live := if size = 0 ∨ p ≠ 0 then Function.update w.live address none else w.live
      (⟨h, given live p size.toNat⟩, p)
  | .kfree address =>
    (heap.kfree w.state address).map fun h => (⟨h, Function.update w.live address none⟩, 0)
  | .write address value =>
    some (⟨{ w.state with memory := setByte w.state.memory address value }, w.live⟩, 0)

/-- Pointers are null or live, sizes are below the bound, and writes go into an allocation. -/
def World.Admitted (w : World) : Event → Prop
  | .kmalloc size => size.toNat < 2 ^ 32 - 24
  | .kcalloc count size => count.toNat * size.toNat < 2 ^ 32 - 24
  | .krealloc address size => (address = 0 ∨ w.live address ≠ none) ∧ size.toNat < 2 ^ 32 - 24
  | .kfree address => address = 0 ∨ w.live address ≠ none
  | .write address _ => ∃ p n, w.live p = some n ∧ p ≤ address ∧ address < p + n

def step (w : Option World) (event : Event) : Option World :=
  w.bind fun w => (w.call event).map Prod.fst

def Allowed (w : Option World) (event : Event) : Prop := ∀ v, w = some v → v.Admitted event

def World.Preserves (w : World) (event : Event) (w' : World) (result : Nat) : Prop :=
  match event with
  | .kmalloc _ => Kept w.state.memory w'.state.memory w.live
  | .kcalloc count size => Kept w.state.memory w'.state.memory w.live ∧
    (result ≠ 0 → ∀ i < count.toNat * size.toNat, w'.state.memory (result + i) = 0)
  | .krealloc address size =>
    Kept w.state.memory w'.state.memory (Function.update w.live address none) ∧
    (result ≠ 0 → ∀ i < min ((w.live address).getD 0) size.toNat,
      w'.state.memory (result + i) = w.state.memory (address + i)) ∧
    (result = 0 → size ≠ 0 → w'.live = w.live ∧ Kept w.state.memory w'.state.memory w.live)
  | .kfree address => Kept w.state.memory w'.state.memory (Function.update w.live address none)
  | .write _ _ => True

section
variable {w : World}

theorem kept_refl (m : Mem) (live : Nat → Option Nat) : Kept m m live := fun _ _ _ _ _ => rfl

theorem update_null (hl : Live w.state w.live) : Function.update w.live 0 none = w.live := by
  rw [← hl.null, Function.update_eq_self]

theorem kmalloc_call (hl : Live w.state w.live) {s : UInt64} (hs : s.toNat < 2 ^ 32 - 24) :
    ∃ h p, heap.kmalloc w.state s = some (h, p) ∧ h.heap_first = w.state.heap_first ∧
      Live h (given w.live p s.toNat) ∧ Kept w.state.memory h.memory w.live ∧
      (p = 0 → Live h w.live) := by
  obtain ⟨h, p, hc, hf, hr⟩ := kmalloc_spec hl hs
  refine ⟨h, p, hc, hf, ?_⟩
  rcases hr with ⟨rfl, hm, hlv⟩ | ⟨hp, -, hlv, hk⟩
  · rw [hm]
    exact ⟨hlv, kept_refl _ _, fun _ => hlv⟩
  grind [given]

theorem call_spec (hl : Live w.state w.live) {event : Event} (ha : w.Admitted event) :
    ∃ w' result, w.call event = some (w', result) ∧ w'.state.heap_first = w.state.heap_first ∧
      Live w'.state w'.live ∧ w.Preserves event w' result := by
  cases event with
  | kmalloc s =>
    obtain ⟨h, p, hc, hf, hlv, hk, -⟩ := kmalloc_call hl ha
    refine ⟨⟨h, given w.live p s.toNat⟩, p, ?_, hf, hlv, hk⟩
    rw [World.call, hc]
    rfl
  | kcalloc c s =>
    obtain ⟨h, p, hc, hf, hr⟩ := kcalloc_spec hl ha
    refine ⟨⟨h, given w.live p (c.toNat * s.toNat)⟩, p, ?_, hf, ?_⟩
    · rw [World.call, hc]
      rfl
    rcases hr with ⟨rfl, hm, hlv⟩ | ⟨hp, -, hlv, hk, hz⟩
    · refine ⟨hlv, ?_, fun h0 => absurd rfl h0⟩
      simpa [hm] using kept_refl _ _
    · rw [given, if_neg hp]
      exact ⟨hlv, hk, fun _ => hz⟩
  | krealloc ad s =>
    obtain ⟨had, hs⟩ := ha
    by_cases hnl : ad = 0
    · subst hnl
      obtain ⟨h, p, hc, hf, hlv, hk, hnn⟩ := kmalloc_call hl hs
      have hcs : (if s = 0 ∨ p ≠ 0 then Function.update w.live 0 none else w.live) = w.live := by
        rw [update_null hl, ite_self]
      refine ⟨⟨h, given w.live p s.toNat⟩, p, ?_, hf, hlv, ?_, ?_, ?_⟩
      · grind [World.call, krealloc, Option.map_some]
      · rw [update_null hl]
        exact hk
      · simp [hl.null]
      · rintro rfl -
        exact ⟨rfl, hk⟩
    · have hsm := had.resolve_left hnl
      obtain ⟨n, hn⟩ := Option.ne_none_iff_exists'.mp hsm
      by_cases hz : s = 0
      · obtain ⟨h, hc, hf, hlv, hk⟩ := kfree_spec hl hn
        refine ⟨⟨h, Function.update w.live ad none⟩, 0, ?_, hf, hlv, hk, ?_, ?_⟩
        · grind [World.call, krealloc, Option.map_some, given]
        · exact fun h0 => absurd rfl h0
        · exact fun _ h0 => absurd hz h0
      · obtain ⟨h, q, hc, hf, hr⟩ := krealloc_spec hl hn hz hs
        rcases hr with ⟨rfl, hm, hlv⟩ | ⟨hq, hlv, hk, hb⟩
        · refine ⟨⟨h, w.live⟩, 0, ?_, hf, hlv, ?_, fun h0 => absurd rfl h0, fun _ _ => ⟨rfl, ?_⟩⟩
          · grind [World.call, Option.map_some, given]
          · simpa [hm] using kept_refl _ _
          simpa [hm] using kept_refl _ _
        · refine ⟨⟨h, Function.update (Function.update w.live ad none) q (some s.toNat)⟩, q, ?_,
            hf, hlv, hk, fun _ => ?_, fun h0 => absurd h0 hq⟩
          · grind [World.call, Option.map_some, given]
          · rw [hn]
            exact hb
  | kfree ad =>
    by_cases hnl : ad = 0
    · subst hnl
      refine ⟨⟨w.state, Function.update w.live 0 none⟩, 0, ?_, rfl, ?_, kept_refl _ _⟩
      · grind [World.call, heap.kfree]
      · rw [update_null hl]
        exact hl
    · obtain ⟨n, hn⟩ := Option.ne_none_iff_exists'.mp (ha.resolve_left hnl)
      obtain ⟨h, hc, hf, hlv, hk⟩ := kfree_spec hl hn
      refine ⟨⟨h, Function.update w.live ad none⟩, 0, ?_, hf, hlv, hk⟩
      rw [World.call, hc]
      rfl
  | write ad v =>
    obtain ⟨p, n, hp, hlw, hh⟩ := ha
    refine ⟨_, 0, rfl, rfl, hl.write hp fun x hx => ?_, trivial⟩
    exact setByte_ne _ _ _ (by omega)

end

/-! ## The start -/

theorem heap_init_live {h h0 : Heap} {pg : Option Pages} {u map : Nat → Int}
    (hi : heap_init h pg u map = (h0, 0)) : Live h0 fun _ => none := by
  unfold heap_init at hi
  cases pg with
  | none => exact absurd (congrArg Prod.snd hi) (by decide : ¬ (-1 : Int) = 0)
  | some pg =>
    simp only at hi
    split at hi
    · exact absurd (congrArg Prod.snd hi) (by decide : ¬ (-1 : Int) = 0)
    split at hi
    · exact absurd (congrArg Prod.snd hi) (by decide : ¬ (-1 : Int) = 0)
    obtain rfl := (congrArg Prod.fst hi).symm
    have hr : REGION = 1048576 := rfl
    have hp : (HEAP_PAGES + HEAP_GUARD_PAGES) * 4096 = 1056768 := rfl
    have hf := pg.fits
    rw [hp] at hf
    have hh := newHeader_at h.memory (pg.address + 4096) (UInt64.ofNat (REGION - 40))
      (by decide : 0 < 2 ^ 64) (by decide : 0 < 2 ^ 64)
    rw [toNat_pointer (by decide)] at hh
    refine ⟨[⟨REGION - 40, none⟩], ⟨?_, ?_, ⟨hh, trivial⟩, rfl, ?_, ?_, ?_, rfl, rfl⟩, ?_⟩
    · exact Nat.succ_pos _
    · show pg.address + 4096 + REGION < 2 ^ 64
      omega
    · simp only [List.mem_singleton, forall_eq]
      exact freeFits (by decide)
    · simp only [List.mem_singleton, forall_eq]
      decide
    · exact List.isChain_singleton _
    · funext p
      exact (payloads_free (by simp)).symm

/-! ## The blocks tile the region -/

/-- The blocks that the walk reaches fill the region, linked both ways, the counters are right, and
`heap_validate` finds nothing wrong. -/
structure WellFormed (h : Heap) (blocks : List Nat) : Prop where
  reached : walk h.memory WALK h.heap_first = some blocks
  first : blocks.head? = some h.heap_first
  start : previous h.memory h.heap_first = 0
  follows : blocks.IsChain (Follows h.memory)
  last : ∀ c ∈ blocks.getLast?, c + 40 + (size h.memory c).toNat = h.heap_first + REGION
  used : h.heap_used.toNat =
    ((blocks.filter (isFree h.memory · = 0)).map fun c => (size h.memory c).toNat).sum
  allocations : h.heap_allocations.toNat = (blocks.filter (isFree h.memory · = 0)).length
  valid : heap_validate h = some 0

/-- The run goes on with a well-formed heap, and without allocations it is one free block again. -/
def Tiled (w : Option World) : Prop :=
  ∃ v blocks, w = some v ∧ WellFormed v.state blocks ∧
    ((∀ p, v.live p = none) → blocks = [v.state.heap_first] ∧
      isFree v.state.memory v.state.heap_first = 1 ∧
      (size v.state.memory v.state.heap_first).toNat = REGION - 40)

section
variable {h : Heap} {bs : List Block}

theorem Holds.cons (hh : Holds h bs) : ∃ b rest, bs = b :: rest := by
  cases bs with
  | nil => exact absurd hh.whole (by decide)
  | cons b rest => exact ⟨b, rest, rfl⟩

theorem Holds.reached (hh : Holds h bs) :
    walk h.memory WALK h.heap_first = some (places h.heap_first bs) := by
  have hw : bs.length < WALK := by
    have := hh.length_lt
    unfold WALK
    omega
  obtain ⟨b, rest, rfl⟩ := hh.cons
  exact walk_places hh.seg hh.first hw

theorem Holds.wellFormed (hh : Holds h bs) : WellFormed h (places h.heap_first bs) := by
  have hl := hh.length_lt
  have hw := hh.whole
  have hu := places_used hh.seg
  refine ⟨hh.reached, ?_, ?_, places_chain hh.seg hh.apart, fun c hc => ?_, ?_, ?_, ?_⟩
  · obtain ⟨b, rest, rfl⟩ := hh.cons
    rfl
  · obtain ⟨b, rest, rfl⟩ := hh.cons
    exact hh.seg.1.previous
  · rw [places_last hh.seg c hc, hw]
  · rw [hu.1, hh.used]
  · rw [hu.2, hh.allocations]
  · have hv : heap_validate_loop h.memory h.heap_first WALK (headOr h.heap_first bs 0) 0 0 = some 0 :=
      validate_places hh.seg hh.fits (le_refl _) hh.first (by rw [hw]) (by unfold WALK; omega) (by omega)
    obtain ⟨b, rest, rfl⟩ := hh.cons
    exact hv

theorem Holds.single (hh : Holds h bs) (hn : ∀ p, payloads h.heap_first bs p = none) :
    bs = [⟨REGION - 40, none⟩] := by
  have hf := free_of_payloads hn
  obtain ⟨b, rest, rfl⟩ := hh.cons
  cases rest with
  | nil =>
    have hw := hh.whole
    obtain ⟨n, u⟩ := b
    obtain rfl : u = none := hf _ List.mem_cons_self
    grind [span_cons, span_nil]
  | cons c rest =>
    rcases (List.isChain_cons_cons.mp hh.apart).1 with hb | hc
    · exact absurd (hf b (by simp)) hb
    · exact absurd (hf c (by simp)) hc

end

theorem Live.tiled {v : World} (hl : Live v.state v.live) : Tiled (some v) := by
  obtain ⟨bs, hh, hlv⟩ := hl
  refine ⟨v, _, rfl, hh.wellFormed, fun hn => ?_⟩
  rw [hlv] at hn
  obtain rfl := hh.single hn
  refine ⟨rfl, hh.seg.1.free, hh.seg.1.size⟩

def Sound (w : Option World) : Prop := ∃ v, w = some v ∧ Live v.state v.live

theorem sound_step {w : Option World} {event : Event} (h : Sound w) (ha : Allowed w event) :
    Sound (step w event) := by
  obtain ⟨v, rfl, hl⟩ := h
  obtain ⟨w', r, hc, -, hlv, -⟩ := call_spec hl (ha v rfl)
  refine ⟨w', ?_, hlv⟩
  rw [step, Option.bind_some, hc]
  rfl

theorem heap_run_live {h h0 : Heap} {p : Option Pages} {un map : Nat → Int} {e : List Event}
    (hi : heap_init h p un map = (h0, 0))
    (ha : Each step Allowed (some ⟨h0, fun _ => none⟩) e) {w : World}
    (hr : run step (some ⟨h0, fun _ => none⟩) e = some w) :
    Live w.state w.live ∧ w.state.heap_first = h0.heap_first := by
  have hs : ∃ v, some (⟨h0, fun _ => none⟩ : World) = some v ∧ Live v.state v.live ∧
      v.state.heap_first = h0.heap_first := ⟨_, rfl, heap_init_live hi, rfl⟩
  have hst : ∀ (u : Option World) (event : Event),
      (∃ v, u = some v ∧ Live v.state v.live ∧ v.state.heap_first = h0.heap_first) → Allowed u event →
      ∃ v, step u event = some v ∧ Live v.state v.live ∧ v.state.heap_first = h0.heap_first := by
    rintro u event ⟨v, rfl, hl, hf⟩ he
    obtain ⟨v', r, hc, hsm, hlv, -⟩ := call_spec hl (he v rfl)
    grind [step, Option.bind_some]
  obtain ⟨v, hv, hlv, hf⟩ := (always_of_each hst (fun _ hu => hu) hs ha).last
  grind

/-- After the initialisation, in every state of every run, the blocks tile the region and the heap is
as its own check wants it. -/
theorem the_blocks_tile_the_region (h h0 : Heap) (pages : Option Pages) (unmap map : Nat → Int)
    (events : List Event) (hinit : heap_init h pages unmap map = (h0, 0))
    (hallowed : Each step Allowed (some ⟨h0, fun _ => none⟩) events) :
    Always step Tiled (some ⟨h0, fun _ => none⟩) events := by
  have hstart : Sound (some ⟨h0, fun _ => none⟩) := ⟨_, rfl, heap_init_live hinit⟩
  refine always_of_each (fun _ _ hw ha => sound_step hw ha) (fun w hw => ?_) hstart hallowed
  obtain ⟨v, rfl, hl⟩ := hw
  exact hl.tiled

theorem heap_init_ok (h : Heap) (p : Pages) :
    (heap_init h (some p) (fun _ => 0) fun _ => 0).2 = 0 := by
  have hm : ¬ (List.range HEAP_PAGES).any (fun _ => decide ((0 : Int) ≠ 0)) = true := by simp
  simp [hm, heap_init]

def samplePages : Pages := ⟨0xFF000, by decide, by decide⟩

def sampleHeap : Heap :=
  (heap_init ⟨fun _ => 0, 0, 0, 0, 0, 0⟩ (some samplePages) (fun _ => 0) fun _ => 0).1

theorem sample_init :
    heap_init ⟨fun _ => 0, 0, 0, 0, 0, 0⟩ (some samplePages) (fun _ => 0) (fun _ => 0) = (sampleHeap, 0) := by
  refine Prod.ext ?_ (heap_init_ok _ samplePages)
  rw [sampleHeap]

theorem sample_first (s : UInt64) (hs : s.toNat < 2 ^ 32 - 24)
    (hl : ((step (some ⟨sampleHeap, fun _ => none⟩) (.kmalloc s)).bind (·.live 0x100028)) ≠ none) :
    Each step Allowed (some ⟨sampleHeap, fun _ => none⟩)
      [.kmalloc s, .krealloc 0x100028 s, .kfree 0] := by
  refine ⟨fun v hv => ?_, fun v hv => ⟨Or.inr ?_, hs⟩, fun v hv => Or.inl rfl, trivial⟩
  · exact hs
  · rw [hv] at hl
    exact hl

theorem a_small_run_tiles : Always step Tiled (some ⟨sampleHeap, fun _ => none⟩)
    [.kmalloc 100, .krealloc 0x100028 100, .kfree 0] :=
  the_blocks_tile_the_region ⟨fun _ => 0, 0, 0, 0, 0, 0⟩ sampleHeap (some samplePages) (fun _ => 0) (fun _ => 0)
    _ sample_init (sample_first 100 (by decide) (by decide +kernel))

/-! ## Allocations are apart and keep their bytes -/

/-- The bytes of an allocation are inside the region, apart from those of the others, and apart from
every header and canary. -/
def Isolated (w : Option World) : Prop :=
  ∃ v blocks, w = some v ∧ walk v.state.memory WALK v.state.heap_first = some blocks ∧
    ∀ p n, v.live p = some n →
      (⟨p, n⟩ : Range).Inside ⟨v.state.heap_first, REGION⟩ ∧
      (∀ q k, v.live q = some k → p ≠ q → (⟨p, n⟩ : Range).Apart ⟨q, k⟩) ∧
      ∀ c ∈ blocks, (⟨p, n⟩ : Range).Apart ⟨c, 40⟩ ∧
        (⟨p, n⟩ : Range).Apart ⟨block_canary v.state.memory c, 8⟩

/-- The call returns, and the bytes of the allocations are as they should be. -/
def Preserving (w : Option World) (event : Event) : Prop :=
  ∀ v, w = some v → ∃ w' result, v.call event = some (w', result) ∧ v.Preserves event w' result

section
variable {a : Nat} {bs : List Block}

theorem places_mem {c : Nat} (h : c ∈ places a bs) :
    ∃ xs b ys, bs = xs ++ b :: ys ∧ c = a + span xs := by
  induction bs generalizing a with
  | nil => cases h
  | cons b bs ih =>
    rcases List.mem_cons.mp h with rfl | h
    · exact ⟨[], b, bs, rfl, rfl⟩
    grind [span_cons]

theorem payloads_around {xs ys : List Block} {b : Block} {p n : Nat}
    (hf : ∀ c ∈ xs ++ b :: ys, c.Fits) (h : payloads a (xs ++ b :: ys) p = some n) :
    p + n ≤ a + span xs ∨ (p = a + span xs + 40 ∧ n + 8 ≤ b.size) ∨
      a + span xs + 40 + b.size + 40 ≤ p := by
  rw [payloads_append, Option.or_eq_some_iff, payloads, Option.or_eq_some_iff] at h
  rcases h with h | ⟨-, h | ⟨-, h⟩⟩
  · have := payloads_bounds (fun c hc => hf c (by simp [hc])) h
    omega
  · split at h
    · exact Or.inr (Or.inl ⟨‹_›, (hf b (by simp)).used n h⟩)
    · cases h
  · have := payloads_bounds (fun c hc => hf c (by simp [hc])) h
    omega

end

theorem Live.isolated {v : World} (hl : Live v.state v.live) : Isolated (some v) := by
  obtain ⟨bs, hh, hlv⟩ := hl
  refine ⟨v, _, rfl, hh.reached, fun p n hp => ⟨?_, fun q k hq hne => ?_, fun c hc => ?_⟩⟩
  · have := Live.inside ⟨bs, hh, hlv⟩ hp
    grind [Range.inside_of_le]
  · rcases Live.apart ⟨bs, hh, hlv⟩ hp hq hne with hlt | hlt
    · exact Range.apart_of_le (by simp only; omega)
    · exact (Range.apart_of_le (by simp only; omega)).symm
  · obtain ⟨xs, b, ys, rfl, rfl⟩ := places_mem hc
    rw [hlv] at hp
    have hb := (hh.fits b (by simp)).size
    unfold block_canary
    rw [hh.seg.middle.size]
    rcases payloads_around hh.fits hp with hlt | ⟨rfl, hr⟩ | hlt
    · exact ⟨Range.apart_of_le hlt, Range.apart_of_le (by simp only; omega)⟩
    · exact ⟨(Range.apart_of_le (by simp only; omega)).symm, Range.apart_of_le (by simp only; omega)⟩
    · exact ⟨(Range.apart_of_le (by simp only; omega)).symm,
        (Range.apart_of_le (by simp only; omega)).symm⟩

/-- In every run the allocations are apart from each other and from what the heap keeps for itself, and
no call changes the bytes of an allocation that it is not about. -/
theorem allocations_keep_their_bytes (h h0 : Heap) (pages : Option Pages) (unmap map : Nat → Int)
    (events : List Event) (hinit : heap_init h pages unmap map = (h0, 0))
    (hallowed : Each step Allowed (some ⟨h0, fun _ => none⟩) events) :
    Always step Isolated (some ⟨h0, fun _ => none⟩) events ∧
      Each step Preserving (some ⟨h0, fun _ => none⟩) events := by
  have hstart : Sound (some ⟨h0, fun _ => none⟩) := ⟨_, rfl, heap_init_live hinit⟩
  refine ⟨always_of_each (fun _ _ hw ha => sound_step hw ha) (fun w hw => ?_) hstart hallowed,
    each_of_each (fun _ _ hw ha => sound_step hw ha) (fun w event hw ha => ?_) hstart hallowed⟩
  · obtain ⟨v, rfl, hl⟩ := hw
    exact hl.isolated
  · obtain ⟨v, rfl, hl⟩ := hw
    intro u hu
    cases hu
    obtain ⟨w', result, hcall, -, -, hpreserves⟩ := call_spec hl (ha v rfl)
    exact ⟨w', result, hcall, hpreserves⟩

theorem a_small_run_keeps_its_bytes :
    Always step Isolated (some ⟨sampleHeap, fun _ => none⟩)
      [.kmalloc 200, .krealloc 0x100028 200, .kfree 0] ∧
    Each step Preserving (some ⟨sampleHeap, fun _ => none⟩)
      [.kmalloc 200, .krealloc 0x100028 200, .kfree 0] :=
  allocations_keep_their_bytes ⟨fun _ => 0, 0, 0, 0, 0, 0⟩ sampleHeap (some samplePages) (fun _ => 0)
    (fun _ => 0) _ sample_init (sample_first 200 (by decide) (by decide +kernel))

end mvh.heap
