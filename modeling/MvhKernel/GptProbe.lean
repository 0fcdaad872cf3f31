-- What `partition_probe` accepts behind a protective MBR: the checks and the loops over
-- sectors and entries come to one condition on the disk and one number of entries.
import MvhKernel.Partition

open flat_memory mvh.crc

namespace mvh.block

/-! ## The table as a whole -/

/-- The fields of the header in sector 1 that are checked. -/
structure GptHeader where
  revision : UInt32
  header_size : UInt32
  header_crc : UInt32
  reserved : UInt32
  own_lba : UInt64
  alternate_lba : UInt64
  first_usable_lba : UInt64
  last_usable_lba : UInt64
  entry_lba : UInt64
  entry_count : UInt32
  entry_size : UInt32
  entries_crc : UInt32
  deriving DecidableEq

def gptHeader (header : Mem) : GptHeader where
  revision := load32 header 8
  header_size := load32 header 12
  header_crc := load32 header 16
  reserved := load32 header 20
  own_lba := load64 header 24
  alternate_lba := load64 header 32
  first_usable_lba := load64 header 40
  last_usable_lba := load64 header 48
  entry_lba := load64 header 72
  entry_count := load32 header 80
  entry_size := load32 header 84
  entries_crc := load32 header 88

def GptHeader.entryBytes (g : GptHeader) : Nat := g.entry_count.toNat * g.entry_size.toNat

/-- The number of sectors of the entries, the last one perhaps only in part. -/
def GptHeader.entrySectors (g : GptHeader) : Nat := (g.entryBytes + 511) / 512

/-- The disk has a GPT: the fields of the header are in their ranges, the parts of the disk lie in
their order, and both checksums match. -/
structure GptTable (disk : Mem) (sector_count : UInt64) (g : GptHeader) : Prop where
  signature : load64 disk 512 = 0x5452415020494645
  revision : g.revision = 0x00010000
  reserved : g.reserved = 0
  own_lba : g.own_lba = 1
  entry_count : 1 ≤ g.entry_count.toNat ∧ g.entry_count.toNat ≤ 128
  entry_size : g.entry_size.toNat = 128 ∨ g.entry_size.toNat = 256 ∨ g.entry_size.toNat = 512
  header_crc : crc32 (some (store32 (shift disk 512) 16 0)) g.header_size.toNat = g.header_crc
  entry_lba : 1 < g.entry_lba.toNat
  entries_end : g.entry_lba.toNat + g.entrySectors ≤ g.first_usable_lba.toNat
  usable : g.first_usable_lba.toNat ≤ g.last_usable_lba.toNat
  alternate : g.last_usable_lba.toNat < g.alternate_lba.toNat
  inside : g.alternate_lba.toNat < sector_count.toNat
  entries_crc : crc32 (some (shift disk (g.entry_lba.toNat * 512))) g.entryBytes = g.entries_crc

def TypeSet (entries : Mem) (offset : Nat) : Prop := ∃ byte < 16, entries (offset + byte) ≠ 0

instance (entries : Mem) (offset : Nat) : Decidable (TypeSet entries offset) :=
  inferInstanceAs (Decidable (∃ byte < 16, entries (offset + byte) ≠ 0))

def inUse (entries : Mem) (size count : Nat) : Nat :=
  (List.range count).countP fun index => TypeSet entries (index * size)

/-! ## The entries of a chunk -/

theorem typeBits_ne_zero (s : Mem) (offset : Nat) : typeBits s offset ≠ 0 ↔ TypeSet s offset := by
  have hf : ∀ (b : List Nat) (st : UInt8),
      b.foldl (fun v byte => v ||| s (offset + byte)) st ≠ 0 ↔
        st ≠ 0 ∨ ∃ byte ∈ b, s (offset + byte) ≠ 0 := by
    intro b
    induction b with
    | nil => simp
    | cons byte b ih => grind
  unfold typeBits TypeSet
  rw [hf]
  simp [List.mem_range]

theorem typeSet_congr {e ot : Mem} {o at_other : Nat}
    (h : ∀ byte < 16, e (o + byte) = ot (at_other + byte)) :
    TypeSet e o ↔ TypeSet ot at_other := by
  refine exists_congr fun byte => and_congr_right fun hb => ?_
  rw [h byte hb]

theorem inUse_add (e : Mem) (s n k : Nat) :
    inUse e s (n + k) = inUse e s n + inUse (shift e (n * s)) s k := by
  unfold inUse
  rw [List.range_add, List.countP_append, List.countP_map]
  congr 1
  apply List.countP_congr
  intro index _
  simp only [Function.comp, decide_eq_true_eq]
  grind [shift_apply, Nat.add_mul, Nat.add_assoc, typeSet_congr]

theorem inUse_succ (e : Mem) (s n : Nat) :
    inUse e s (n + 1) = (if TypeSet e 0 then 1 else 0) + inUse (shift e s) s n := by
  have ho : inUse e s 1 = if TypeSet e 0 then 1 else 0 := by
    simp [inUse, List.range_succ]
  rw [Nat.add_comm n 1, inUse_add, Nat.one_mul, ho]

theorem inUse_congr {e o : Mem} {size count : Nat} (hs : 16 ≤ size)
    (h : ∀ i < count * size, e i = o i) : inUse e size count = inUse o size count := by
  unfold inUse
  apply List.countP_congr
  intro index hi
  have hi := List.mem_range.mp hi
  have he : (index + 1) * size ≤ count * size := Nat.mul_le_mul_right _ hi
  grind [Nat.succ_mul, typeSet_congr]

theorem countEntries_eq {s : Mem} {e chunk : UInt32} {n : Nat} (hsz : 0 < e.toNat)
    (hl : chunk.toNat + e.toNat < 2 ^ 32) (turns : Nat) {o : UInt32}
    (hc : chunk.toNat = o.toNat + n * e.toNat) (ht : n ≤ turns) (p : UInt32) :
    countEntries s e chunk turns o p =
      p + UInt32.ofNat (inUse (shift s o.toNat) e.toNat n) := by
  induction turns generalizing n o p with
  | zero =>
    obtain rfl : n = 0 := by omega
    exact (UInt32.add_zero p).symm
  | succ turns ih =>
    have hn : (o + e).toNat = o.toNat + e.toNat := by grind
    unfold countEntries
    cases n with
    | zero =>
      have hst : ¬ o + e ≤ chunk := by grind
      rw [if_neg hst]
      exact (UInt32.add_zero p).symm
    | succ n =>
      rw [Nat.succ_mul] at hc
      have hm : o + e ≤ chunk := by grind
      have hf : TypeSet (shift s o.toNat) 0 ↔ typeBits s o.toNat ≠ 0 := by
        rw [typeBits_ne_zero]
        refine typeSet_congr fun byte _ => ?_
        rw [shift_apply, Nat.zero_add]
      have hs : shift (shift s o.toNat) e.toNat =
          shift s (o.toNat + e.toNat) := by grind
      rw [if_pos hm, ih (n := n) (by rw [hn]; omega) (by omega), hn, inUse_succ, hs,
        UInt32.ofNat_add, ← UInt32.add_assoc]
      congr 1
      grind

/-! ## The sectors -/

theorem read_sector {m : Machine} {id : UInt32} {d : BlockDevice} (h : HasSectors m id d) {lba : Nat}
    (hl : lba < d.sector_count.toNat) :
    ∃ s, block_read id lba 1 m = (some (some s), m) ∧
      ∀ i < 512, s i = m.media id (lba * 512 + i) := by
  obtain ⟨s, hr, hb⟩ := block_read_eq h hl
  refine ⟨s, hr, fun i hi => ?_⟩
  have hby := congrFun hb ⟨i, hi⟩
  exact hby

/-- What is known of the entry size once it is checked. -/
structure EntrySize (entry_size : UInt32) (per : Nat) : Prop where
  pos : 16 ≤ entry_size.toNat
  fills : per * entry_size.toNat = 512

theorem EntrySize.small {e : UInt32} {per : Nat} (h : EntrySize e per) :
    e.toNat ≤ 512 := by
  have hp : 0 < per := by
    rcases Nat.eq_zero_or_pos per with rfl | hps
    · have hf := h.fills
      omega
    · exact hps
  rw [← h.fills]
  exact Nat.le_mul_of_pos_left _ hp

theorem EntrySize.chunk {e : UInt32} {per : Nat} (h : EntrySize e per) {remaining : UInt64}
    {n : Nat} (hr : remaining.toNat = n * e.toNat) :
    ∃ k rest, n = k + rest ∧
      (if remaining > 512 then 512 else remaining.toUInt32 : UInt32).toNat = k * e.toNat ∧
      k * e.toNat ≤ 512 ∧ (rest = 0 ∨ k * e.toNat = 512) := by
  have hp := h.pos
  have hf := h.fills
  by_cases hm : remaining > 512
  · have hmr : 512 < n * e.toNat := by grind
    have hpr : per ≤ n := Nat.le_of_mul_le_mul_right (by omega) (by omega : 0 < e.toNat)
    refine ⟨per, n - per, by omega, ?_, hf.le, .inr hf⟩
    rw [if_pos hm, hf]
    rfl
  · have hfw : n * e.toNat ≤ 512 := by grind
    refine ⟨n, 0, rfl, ?_, hfw, .inl rfl⟩
    grind

theorem readEntries_eq {m : Machine} {id : UInt32} {d : BlockDevice} (h : HasSectors m id d)
    (en : UInt64) {e : UInt32} {per : Nat} (hs : EntrySize e per)
    (left : Nat) (s : UInt64) {remaining : UInt64} {n : Nat} (hr : remaining.toNat = n * e.toNat)
    (hl : left = (n * e.toNat + 511) / 512)
    (hin : en.toNat + s.toNat + left ≤ d.sector_count.toNat) (crc p : UInt32) :
    readEntries id en e left s remaining crc p m =
      let entries := shift (m.media id) ((en.toNat + s.toNat) * 512)
      (some (some (crc32_update crc (some entries) (n * e.toNat),
        p + UInt32.ofNat (inUse entries e.toNat n))), m) := by
  induction left generalizing s remaining n crc p with
  | zero =>
    have hp := hs.pos
    have hnn : n * e.toNat = 0 := by omega
    obtain rfl : n = 0 := (Nat.mul_eq_zero.mp hnn).resolve_right (by omega)
    dsimp only
    rw [Nat.zero_mul, crc32_update_zero]
    have hz : UInt32.ofNat (inUse (shift (m.media id) ((en.toNat + s.toNat) * 512))
        e.toNat 0) = 0 := rfl
    rw [hz, UInt32.add_zero]
    rfl
  | succ left ih =>
    have hp := hs.pos
    have hbn := d.sector_count.toNat_lt
    obtain ⟨k, rest, rfl, hc, hft, hrs⟩ := hs.chunk hr
    have hlb : (en + s).toNat = en.toNat + s.toNat := by grind
    have hn : (s + 1).toNat = s.toNat + 1 := by grind
    have hrd : en.toNat + s.toNat < d.sector_count.toNat := by omega
    obtain ⟨sector, hre, hb⟩ := read_sector h hrd
    unfold readEntries
    dsimp only
    rw [hlb, Io.bind_some _ hre]
    dsimp only
    generalize hch : (if remaining > 512 then 512 else remaining.toUInt32 : UInt32) = chunk at hc ⊢
    rw [Nat.add_mul] at hr hl
    have hls : (remaining - chunk.toUInt64).toNat = rest * e.toNat := by grind
    have hsc : left = (rest * e.toNat + 511) / 512 := by
      rcases hrs with rfl | hf
      · omega
      · omega
    rw [ih (s + 1) hls hsc (by rw [hn]; omega)]
    have hk : k ≤ k * e.toNat := Nat.le_mul_of_pos_right k (by omega)
    have hsm : ∀ i < k * e.toNat,
        sector i = shift (m.media id) ((en.toNat + s.toNat) * 512) i :=
      fun i hi => hb i (by omega)
    -- where entries are left, the next sector has t
    have ho : ∀ i < rest * e.toNat,
        shift (shift (m.media id) ((en.toNat + s.toNat) * 512)) (k * e.toNat) i =
          shift (m.media id) ((en.toNat + (s.toNat + 1)) * 512) i := by
      intro i hi
      rcases hrs with rfl | hf
      · omega
      · simp only [shift_apply, hf]
        exact congrArg (m.media id) (by omega)
    have hcn : ∀ turns ≥ k, countEntries sector e chunk turns 0 p =
        p + UInt32.ofNat (inUse sector e.toNat k) := by
      intro turns ht
      have hst : shift sector (0 : UInt32).toNat = sector :=
        funext fun x => congrArg sector (Nat.zero_add x)
      have hsl := hs.small
      rw [countEntries_eq (n := k) (by omega) (by omega) turns (hc.trans (Nat.zero_add _).symm) ht,
        hst]
    dsimp only
    rw [hn, hc, hcn 512 (by omega), Nat.add_mul k rest, crc32_update_add, crc32_update_congr hsm,
      crc32_update_congr ho, inUse_add, inUse_congr hp hsm, inUse_congr hp ho,
      UInt32.ofNat_add, UInt32.add_assoc]

/-! ## The header -/

theorem entry_size_iff (e : UInt32) :
    ¬ (e < 128 ∨ e > 512 ∨ e &&& 127 ≠ 0 ∨ 512 % e ≠ 0) ↔
      e.toNat = 128 ∨ e.toNat = 256 ∨ e.toNat = 512 := by
  constructor
  · intro h
    obtain ⟨hl, hh, -, hd⟩ : ¬ e < 128 ∧ ¬ e > 512 ∧
        ¬ e &&& 127 ≠ 0 ∧ ¬ 512 % e ≠ 0 := by
      simpa only [not_or] using h
    have hl : 128 ≤ e.toNat := by grind
    have hh : e.toNat ≤ 512 := by grind
    have hm : 512 % e.toNat = 0 := by
      have hm := congrArg UInt32.toNat (not_not.mp hd)
      rwa [UInt32.toNat_mod] at hm
    obtain ⟨k, hk, hp⟩ := (Nat.dvd_prime_pow Nat.prime_two).mp (Nat.dvd_of_mod_eq_zero hm : _ ∣ 2 ^ 9)
    interval_cases k <;> omega
  · rintro (h | h | h)
    · rw [UInt32.toNat_inj.mp (h.trans rfl : e.toNat = (128 : UInt32).toNat)]
      decide
    · rw [UInt32.toNat_inj.mp (h.trans rfl : e.toNat = (256 : UInt32).toNat)]
      decide
    · rw [UInt32.toNat_inj.mp (h.trans rfl : e.toNat = (512 : UInt32).toNat)]
      decide

theorem entrySize_of {e : UInt32}
    (h : e.toNat = 128 ∨ e.toNat = 256 ∨ e.toNat = 512) :
    ∃ per, EntrySize e per := by
  rcases h with h | h | h
  · exact ⟨4, by omega, by omega⟩
  · exact ⟨2, by omega, by omega⟩
  · exact ⟨1, by omega, by omega⟩

/-- The entries lie between the header and the usable sectors, and their checksum matches. -/
structure EntriesValid (disk : Mem) (g : GptHeader) : Prop where
  lba : 1 < g.entry_lba.toNat
  fits : g.entry_lba.toNat + g.entrySectors ≤ g.first_usable_lba.toNat
  crc : crc32 (some (shift disk (g.entry_lba.toNat * 512))) g.entryBytes = g.entries_crc

def GptHeader.partitions (disk : Mem) (g : GptHeader) : Nat :=
  inUse (shift disk (g.entry_lba.toNat * 512)) g.entry_size.toNat g.entry_count.toNat

theorem entries_fit_iff (e : UInt64) {first s sc : UInt64} (hs : 1 ≤ sc.toNat)
    (hi : first.toNat < s.toNat) :
    ¬ (e ≤ 1 ∨ e ≥ first ∨ e ≥ s ∨ sc > s - e ∨
        sc > first - e) ↔
      1 < e.toNat ∧ e.toNat + sc.toNat ≤ first.toNat := by
  grind

theorem GptHeader.entry_bytes {g : GptHeader} (hc : g.entry_count.toNat ≤ 128)
    (hsz : g.entry_size.toNat ≤ 512) :
    (g.entry_count.toUInt64 * g.entry_size.toUInt64).toNat = g.entryBytes ∧ g.entryBytes ≤ 65536 := by
  have hs : g.entry_count.toNat * g.entry_size.toNat ≤ 128 * 512 := Nat.mul_le_mul hc hsz
  refine ⟨?_, hs⟩
  rw [UInt64.toNat_mul, UInt32.toNat_toUInt64, UInt32.toNat_toUInt64]
  exact Nat.mod_eq_of_lt (by omega)

theorem GptHeader.entry_sectors {g : GptHeader} {entry_bytes : UInt64} (h : entry_bytes.toNat = g.entryBytes)
    (hs : g.entryBytes ≤ 65536) : ((entry_bytes + 511) / 512).toNat = g.entrySectors := by
  have h511 : (511 : UInt64).toNat = 511 := rfl
  have h512 : (512 : UInt64).toNat = 512 := rfl
  rw [UInt64.toNat_div, UInt64.toNat_add, h, h511, h512, Nat.mod_eq_of_lt (by omega)]
  rfl

theorem readEntries_all {m : Machine} {id : UInt32} {d : BlockDevice} (h : HasSectors m id d) {g : GptHeader}
    {per : Nat} (hs : EntrySize g.entry_size per) {entry_bytes : UInt64}
    (hb : entry_bytes.toNat = g.entryBytes) (hi : g.entry_lba.toNat + g.entrySectors ≤ d.sector_count.toNat) :
    readEntries id g.entry_lba g.entry_size g.entrySectors 0 entry_bytes 0 0 m =
      (some (some (crc32 (some (shift (m.media id) (g.entry_lba.toNat * 512))) g.entryBytes,
        UInt32.ofNat (g.partitions (m.media id)))), m) := by
  rw [readEntries_eq h g.entry_lba hs g.entrySectors 0 hb rfl hi 0 0]
  dsimp only
  rw [UInt32.zero_add]
  rfl

theorem probeEntries_spec {m : Machine} {id : UInt32} {d : BlockDevice} (h : HasSectors m id d)
    (hd : Mem) (i : PartitionInfo) (hf : i.first_usable_lba = (gptHeader hd).first_usable_lba)
    (hcn : 1 ≤ (gptHeader hd).entry_count.toNat ∧ (gptHeader hd).entry_count.toNat ≤ 128)
    (hsz : (gptHeader hd).entry_size.toNat = 128 ∨ (gptHeader hd).entry_size.toNat = 256 ∨
      (gptHeader hd).entry_size.toNat = 512)
    (hi : (gptHeader hd).first_usable_lba.toNat < d.sector_count.toNat) :
    ∃ r after, probeEntries id d hd i m = (some (r, after), m) ∧
      ((r = 0 ∧ EntriesValid (m.media id) (gptHeader hd) ∧ after.type = .gpt ∧
          after.partition_count = UInt32.ofNat ((gptHeader hd).partitions (m.media id))) ∨
        (r = -2 ∧ ¬ EntriesValid (m.media id) (gptHeader hd) ∧ after = i)) := by
  obtain ⟨per, hpr⟩ := entrySize_of hsz
  obtain ⟨hb, hfw⟩ := GptHeader.entry_bytes hcn.2 hpr.small
  have hs := GptHeader.entry_sectors hb hfw
  have hps : 1 ≤ (gptHeader hd).entrySectors := by grind
  have hft := entries_fit_iff (gptHeader hd).entry_lba (hs ▸ hps) (hf ▸ hi)
  rw [hs] at hft
  by_cases hl : 1 < (gptHeader hd).entry_lba.toNat ∧ (gptHeader hd).entry_lba.toNat +
      (gptHeader hd).entrySectors ≤ i.first_usable_lba.toNat
  · have hr := readEntries_all h hpr hb (by rw [hf] at hl; omega)
    rw [← hs] at hr
    have hp : probeEntries id d hd i = _ := if_neg (hft.mpr hl)
    have hrn := (congrFun hp m).trans (Io.bind_some _ hr)
    by_cases hc : crc32 (some (shift (m.media id) ((gptHeader hd).entry_lba.toNat * 512)))
        (gptHeader hd).entryBytes = (gptHeader hd).entries_crc
    · exact ⟨0, _, hrn.trans (congrFun (if_neg (not_not.mpr hc)) m),
        .inl ⟨rfl, ⟨hl.1, hf ▸ hl.2, hc⟩, rfl, rfl⟩⟩
    · exact ⟨-2, i, hrn.trans (congrFun (if_pos hc) m),
        .inr ⟨rfl, fun hv => hc hv.crc, rfl⟩⟩
  · have hp : probeEntries id d hd i = _ := if_pos (not_not.mp (mt hft.mp hl))
    exact ⟨-2, i, congrFun hp m,
      .inr ⟨rfl, fun hv => hl ⟨hv.lba, hf ▸ hv.fits⟩, rfl⟩⟩

/-- The fields of the header are in their ranges. -/
structure FieldsValid (sector_count : UInt64) (g : GptHeader) : Prop where
  revision : g.revision = 0x00010000
  header_size : 92 ≤ g.header_size.toNat ∧ g.header_size.toNat ≤ 512
  reserved : g.reserved = 0
  own_lba : g.own_lba = 1
  alternate : g.alternate_lba.toNat < sector_count.toNat
  entry_count : 1 ≤ g.entry_count.toNat ∧ g.entry_count.toNat ≤ 128
  entry_size : g.entry_size.toNat = 128 ∨ g.entry_size.toNat = 256 ∨ g.entry_size.toNat = 512

theorem fields_valid_iff (s : UInt64) (g : GptHeader) :
    ¬ (g.revision ≠ 0x00010000 ∨ g.header_size < 92 ∨ g.header_size > 512 ∨ g.reserved ≠ 0 ∨
        g.own_lba ≠ 1 ∨ g.alternate_lba ≥ s ∨ g.entry_count = 0 ∨ g.entry_count > 128 ∨
        g.entry_size < 128 ∨ g.entry_size > 512 ∨ g.entry_size &&& 127 ≠ 0 ∨ 512 % g.entry_size ≠ 0) ↔
      FieldsValid s g := by
  have h92 : ¬ g.header_size < 92 ↔ 92 ≤ g.header_size.toNat := by grind
  have h : ¬ g.header_size > 512 ↔ g.header_size.toNat ≤ 512 := by grind
  have ha : ¬ g.alternate_lba ≥ s ↔ g.alternate_lba.toNat < s.toNat := by grind
  have hc : ¬ g.entry_count = 0 ↔ 1 ≤ g.entry_count.toNat := by
    rw [← UInt32.toNat_inj, UInt32.toNat_zero]
    omega
  have h128 : ¬ g.entry_count > 128 ↔ g.entry_count.toNat ≤ 128 := by grind
  have hs := entry_size_iff g.entry_size
  rw [not_or, not_or, not_or, not_or, not_or, not_or, not_or, not_or, hs, h92, h, ha, hc,
    h128, not_not, not_not, not_not]
  constructor
  · rintro ⟨hr, h1, h2, hrs, ho, hi, h3, h4, h5⟩
    exact ⟨hr, ⟨h1, h2⟩, hrs, ho, hi, ⟨h3, h4⟩, h5⟩
  · rintro ⟨hr, ⟨h1, h2⟩, hrs, ho, hi, ⟨h3, h4⟩, h5⟩
    grind

theorem usable_iff (first l : UInt64) {s a : UInt64} (h : a.toNat < s.toNat) :
    ¬ (first > l ∨ l ≥ s ∨ a ≤ l) ↔
      first.toNat ≤ l.toNat ∧ l.toNat < a.toNat := by
  simp only [ge_iff_le, gt_iff_lt, UInt64.le_iff_toNat_le, UInt64.lt_iff_toNat_lt]
  omega

/-- All that `gpt_probe` asks of the header and the disk. -/
structure GptValid (disk header : Mem) (sector_count : UInt64) : Prop where
  fields : FieldsValid sector_count (gptHeader header)
  usable : (gptHeader header).first_usable_lba.toNat ≤ (gptHeader header).last_usable_lba.toNat ∧
    (gptHeader header).last_usable_lba.toNat < (gptHeader header).alternate_lba.toNat
  crc : crc32 (some (store32 header 16 0)) (gptHeader header).header_size.toNat = (gptHeader header).header_crc
  entries : EntriesValid disk (gptHeader header)

theorem gpt_probe_spec {m : Machine} {id : UInt32} {d : BlockDevice} (h : HasSectors m id d) (hd : Mem)
    (i : PartitionInfo) :
    ∃ r after, gpt_probe id d hd i m = (some (r, after), m) ∧
      ((r = 0 ∧ GptValid (m.media id) hd d.sector_count ∧ after.type = .gpt ∧
          after.partition_count = UInt32.ofNat ((gptHeader hd).partitions (m.media id))) ∨
        (r = -2 ∧ ¬ GptValid (m.media id) hd d.sector_count ∧ after.type = i.type ∧
          after.partition_count = i.partition_count)) := by
  have hf := fields_valid_iff d.sector_count (gptHeader hd)
  by_cases hv : FieldsValid d.sector_count (gptHeader hd)
  swap
  · have hp : gpt_probe id d hd i = _ := if_pos (not_not.mp (mt hf.mp hv))
    exact ⟨-2, _, congrFun hp m, .inr ⟨rfl, fun hg => hv hg.fields, rfl, rfl⟩⟩
  have hp : gpt_probe id d hd i = _ := if_neg (hf.mpr hv)
  have hu := usable_iff (gptHeader hd).first_usable_lba (gptHeader hd).last_usable_lba
    hv.alternate
  by_cases ho : (gptHeader hd).first_usable_lba.toNat ≤ (gptHeader hd).last_usable_lba.toNat ∧
      (gptHeader hd).last_usable_lba.toNat < (gptHeader hd).alternate_lba.toNat
  swap
  · have hp := hp.trans (if_pos (not_not.mp (mt hu.mp ho)))
    exact ⟨-2, _, congrFun hp m, .inr ⟨rfl, fun hg => ho hg.usable, rfl, rfl⟩⟩
  have hp := hp.trans (if_neg (hu.mpr ho))
  by_cases hc : crc32 (some (store32 hd 16 0)) (gptHeader hd).header_size.toNat =
      (gptHeader hd).header_crc
  swap
  · have hp := hp.trans (if_pos hc)
    exact ⟨-2, _, congrFun hp m, .inr ⟨rfl, fun hg => hc hg.crc, rfl, rfl⟩⟩
  have hp := hp.trans (if_neg (not_not.mpr hc))
  have hal := hv.alternate
  have he := probeEntries_spec h hd
    { i with
      first_usable_lba := load64 hd 40, last_usable_lba := load64 hd 48, gpt_header_valid := 1 }
    rfl hv.entry_count hv.entry_size (by omega)
  obtain ⟨r, after, hrn, hcs⟩ := he
  refine ⟨r, after, (congrFun hp m).trans hrn, ?_⟩
  rcases hcs with ⟨hr, hvl, ht, hcn⟩ | ⟨hr, hi, ha⟩
  · exact .inl ⟨hr, ⟨hv, ho, hc, hvl⟩, ht, hcn⟩
  · refine .inr ⟨hr, fun hg => hi hg.entries, ?_, ?_⟩
    · rw [ha]
    · rw [ha]

/-! ## The disk -/

/-- The first sector has the boot signature and an entry that says that the disk has a GPT. -/
structure ProtectiveMbr (disk : Mem) : Prop where
  low : disk 510 = 0x55
  high : disk 511 = 0xAA
  entry : ∃ index < 4, disk (446 + index * 16 + 4) = 0xEE

theorem foldl_reaches {α β : Type} {f : β → α → β} {P : β → Prop} {a : α} {l : List α} (ha : a ∈ l)
    (hs : ∀ b, P (f b a)) (hk : ∀ b x, P b → P (f b x)) (b : β) : P (l.foldl f b) := by
  obtain ⟨bf, after, rfl⟩ := List.append_of_mem ha
  rw [List.foldl_append, List.foldl_cons]
  exact List.foldlRecOn after f (hs _) fun b hb x _ => hk b x hb

theorem mbrEntries_protective {s : Mem} (h : ∃ index < 4, s (446 + index * 16 + 4) = 0xEE) :
    (mbrEntries s).1 ≠ 0 := by
  obtain ⟨index, hi, hp⟩ := h
  unfold mbrEntries
  refine foldl_reaches (P := fun f : UInt8 × UInt32 => f.1 ≠ 0) (List.mem_range.mpr hi) ?_ ?_ _
  · grind
  grind

theorem gptHeader_congr {hd other : Mem} (h : ∀ i < 512, hd i = other i) :
    gptHeader hd = gptHeader other := by
  have h32 : ∀ a, a + 4 ≤ 512 → load32 hd a = load32 other a :=
    fun a ha => load32_congr fun i hi => h (a + i) (by omega)
  have h64 : ∀ a, a + 8 ≤ 512 → load64 hd a = load64 other a :=
    fun a ha => load64_congr fun i hi => h (a + i) (by omega)
  simp [h32, h64, gptHeader]

theorem store32_congr {hd o : Mem} {a : Nat} {v : UInt32} {n : Nat}
    (h : ∀ i < n, hd i = o i) : ∀ i < n, store32 hd a v i = store32 o a v i := by
  intro i hi
  simp only [store32, setByte, h i hi]

theorem gptValid_iff {d hd : Mem} (h : ∀ i < 512, hd i = d (512 + i)) (s : UInt64)
    (hs : load64 d 512 = 0x5452415020494645) :
    GptValid d hd s ↔
      (92 ≤ (gptHeader (shift d 512)).header_size.toNat ∧
        (gptHeader (shift d 512)).header_size.toNat ≤ 512) ∧
      GptTable d s (gptHeader (shift d 512)) := by
  have hhd : gptHeader hd = gptHeader (shift d 512) := gptHeader_congr h
  have hc : ∀ n ≤ 512, crc32 (some (store32 hd 16 0)) n = crc32 (some (store32 (shift d 512) 16 0)) n := by
    intro n hn
    refine crc32_congr (store32_congr fun i hi => h i (by omega))
  constructor
  · rintro ⟨hf, hu, hh, he⟩
    rw [hhd] at hf hu hh he
    rw [hc _ hf.header_size.2] at hh
    exact ⟨hf.header_size, hs, hf.revision, hf.reserved, hf.own_lba,
      hf.entry_count, hf.entry_size, hh, he.lba, he.fits, hu.1, hu.2,
      hf.alternate, he.crc⟩
  · rintro ⟨hsz, ht⟩
    refine ⟨?_, ?_, ?_, ?_⟩ <;> rw [hhd]
    · exact ⟨ht.revision, hsz, ht.reserved, ht.own_lba, ht.inside, ht.entry_count,
        ht.entry_size⟩
    · exact ⟨ht.usable, ht.alternate⟩
    · rw [hc _ hsz.2]
      exact ht.header_crc
    · exact ⟨ht.entry_lba, ht.entries_end, ht.entries_crc⟩

theorem partition_probe_protective {m : Machine} {id : UInt32} {d : BlockDevice} (h : HasSectors m id d)
    (hsm : 0 < d.sector_count.toNat) (hm : ProtectiveMbr (m.media id)) (b : PartitionInfo) :
    partition_probe id (some b) m = (do
      let s ← block_read id 1 1
      match s with
      | none => pure (-2, some { protective_mbr := 1 })
      | some s =>
        if load64 s 0 ≠ 0x5452415020494645 then pure (-2, some { protective_mbr := 1 })
        else do
          let (result, info) ← gpt_probe id d s { protective_mbr := 1 }
          pure (result, some info) : Io (Int × Option PartitionInfo)) m := by
  obtain ⟨s, hr, hb⟩ := read_sector h hsm
  simp only [Nat.zero_mul, Nat.zero_add] at hb
  have hg : getDevice id m = (some (some d), m) := by
    unfold getDevice
    rw [h.get]
  have hs : ¬ (s 510 ≠ 0x55 ∨ s 511 ≠ 0xAA) := by
    simp [hb, hm.low, hm.high]
  have hp : (mbrEntries s).1 ≠ 0 := by
    obtain ⟨index, hi, he⟩ := hm.entry
    grind [mbrEntries_protective]
  have hpt : partition_probe id (some b) m = _ := Io.bind_some _ hg
  have hpt := hpt.trans (congrFun (if_neg (not_not.mpr h.size)) m)
  have hpt := hpt.trans (Io.bind_some _ hr)
  grind

theorem GptHeader.partitions_le (g : GptHeader) (d : Mem) : g.partitions d ≤ g.entry_count.toNat := by
  have hle := List.countP_le_length (l := List.range g.entry_count.toNat)
    (p := fun index => decide (TypeSet (shift d (g.entry_lba.toNat * 512)) (index * g.entry_size.toNat)))
  rwa [List.length_range] at hle

/-- Behind a protective MBR, `partition_probe` returns 0 for just the disks with a GPT whose header
has 92 to 512 bytes, and then it counts the entries in use. It returns -2 for all others and finds
nothing there. -/
theorem gpt_is_accepted_iff {m : Machine} {id : UInt32} {d : BlockDevice} (h : HasSectors m id d)
    (hsome : 0 < d.sector_count.toNat) (hmbr : ProtectiveMbr (m.media id)) (before : PartitionInfo) :
    let disk := m.media id
    let g := gptHeader (shift disk 512)
    ∃ result after, partition_probe id (some before) m = (some (result, some after), m) ∧
      (result = 0 ↔ (92 ≤ g.header_size.toNat ∧ g.header_size.toNat ≤ 512) ∧
        GptTable disk d.sector_count g) ∧
      (result = 0 → after.type = .gpt ∧ after.partition_count.toNat = g.partitions disk) ∧
      (result ≠ 0 → result = -2 ∧ after.type = .none ∧ after.partition_count = 0) := by
  intro disk g
  have hstart := partition_probe_protective h hsome hmbr before
  by_cases hsecond : 1 < d.sector_count.toNat
  swap
  · -- a disk with one sector has no place for a table
    have hread : block_read id 1 1 m = (some none, m) := by
      unfold block_read
      rw [h.get]
      exact if_pos (.inr (.inl (Nat.le_of_not_lt hsecond)))
    refine ⟨-2, _, hstart.trans (Io.bind_some _ hread), ⟨nofun, fun ⟨_, htable⟩ => ?_⟩, nofun,
      fun _ => ⟨rfl, rfl, rfl⟩⟩
    have h1 := htable.entry_lba
    have h2 := htable.entries_end
    have h3 := htable.usable
    have h4 := htable.alternate
    have h5 := htable.inside
    omega
  obtain ⟨sector, hread, hbytes⟩ := read_sector h hsecond
  simp only [Nat.one_mul] at hbytes
  have hfirst : load64 sector 0 = load64 disk 512 := load64_congr fun i hi => by
    rw [Nat.zero_add]
    exact hbytes i (by omega)
  have hpath := hstart.trans (Io.bind_some _ hread)
  by_cases hsignature : load64 disk 512 = 0x5452415020494645
  swap
  · have hpath := hpath.trans (congrFun (if_pos (hfirst ▸ hsignature)) m)
    exact ⟨-2, _, hpath, ⟨nofun, fun htable => absurd htable.2.signature hsignature⟩, nofun,
      fun _ => ⟨rfl, rfl, rfl⟩⟩
  have hpath := hpath.trans (congrFun (if_neg (not_not.mpr (hfirst.trans hsignature))) m)
  obtain ⟨result, after, hrun, hcases⟩ := gpt_probe_spec h sector { protective_mbr := 1 }
  have hheader : gptHeader sector = g := gptHeader_congr hbytes
  rw [gptValid_iff hbytes d.sector_count hsignature, hheader] at hcases
  refine ⟨result, after, hpath.trans (Io.bind_some _ hrun), ?_⟩
  rcases hcases with ⟨rfl, hvalid, htype, hcount⟩ | ⟨rfl, hinvalid, htype, hcount⟩
  · refine ⟨⟨fun _ => hvalid, fun _ => rfl⟩, fun _ => ⟨htype, ?_⟩, fun hne => absurd rfl hne⟩
    have hle : g.partitions (m.media id) ≤ g.entry_count.toNat := g.partitions_le disk
    have hfew : g.entry_count.toNat ≤ 128 := hvalid.2.entry_count.2
    rw [hcount, UInt32.toNat_ofNat']
    exact Nat.mod_eq_of_lt (by omega)
  · exact ⟨⟨nofun, fun hvalid => absurd hvalid hinvalid⟩, nofun, fun _ => ⟨rfl, htype, hcount⟩⟩

/-! ## A small disk -/

/-- The disk of `block_self_test` with only one entry. -/
def smallDisk (header_size header_crc entries_crc : UInt32) : Mem :=
  let disk : Mem := fun _ => 0
  let disk := setByte (setByte (setByte (setByte disk 450 0xEE) 458 1) 510 0x55) 511 0xAA
  let disk := store32 (store32 (store64 disk 512 0x5452415020494645) 520 0x00010000) 524 header_size
  let disk := store64 (store64 (store64 disk 536 1) 544 7) 552 3
  let disk := store32 (store32 (store64 (store64 disk 560 6) 584 2) 592 1) 596 128
  store32 (store32 (setByte disk 1024 0x28) 600 entries_crc) 528 header_crc

/-- The machine whose only device is a read-only disk with eight sectors. -/
def smallMachine (disk : Mem) : Machine where
  table :=
    { devices := [⟨0, 512, 8, 0⟩]
      ids := by
        intro i d hd
        obtain ⟨hi, rfl⟩ := List.getElem?_eq_some_iff.mp hd
        obtain rfl : i = 0 := Nat.lt_one_iff.mp hi
        rfl
      room := by decide }
  media := fun _ => disk
  plan := []
  written := []

theorem smallMachine_sectors (d : Mem) : HasSectors (smallMachine d) 0 ⟨0, 512, 8, 0⟩ := ⟨rfl, rfl⟩

/-- The disk is accepted, and it has one partition. -/
theorem the_small_disk_is_accepted :
    let disk := smallDisk 92 460437279 1332604001
    ProtectiveMbr disk ∧ (gptHeader (shift disk 512)).partitions disk = 1 ∧
    (partition_probe 0 (some {}) (smallMachine disk)).1.map Prod.fst = some 0 ∧
    ∃ result after, partition_probe 0 (some {}) (smallMachine disk) = (some (result, some after), smallMachine disk) ∧
      (result = 0 ↔ (92 ≤ (gptHeader (shift disk 512)).header_size.toNat ∧
        (gptHeader (shift disk 512)).header_size.toNat ≤ 512) ∧
        GptTable disk 8 (gptHeader (shift disk 512))) ∧
      (result = 0 → after.type = .gpt ∧
        after.partition_count.toNat = (gptHeader (shift disk 512)).partitions disk) ∧
      (result ≠ 0 → result = -2 ∧ after.type = .none ∧ after.partition_count = 0) := by
  have hmbr : ProtectiveMbr (smallDisk 92 460437279 1332604001) := ⟨rfl, rfl, 0, by decide, rfl⟩
  exact ⟨hmbr, by decide +kernel, by decide +kernel,
    gpt_is_accepted_iff (smallMachine_sectors _) (by decide) hmbr {}⟩

/-- The same disk with a header of 80 bytes, whose checksum matches, is not accepted. -/
theorem a_short_header_is_refused :
    let disk := smallDisk 80 1610400271 1332604001
    ProtectiveMbr disk ∧ GptTable disk 8 (gptHeader (shift disk 512)) ∧
    (partition_probe 0 (some {}) (smallMachine disk)).1.map Prod.fst = some (-2) := by
  refine ⟨⟨rfl, rfl, 0, by decide, rfl⟩, ?_, by decide +kernel⟩
  exact ⟨by decide +kernel, by decide +kernel, by decide +kernel, by decide +kernel, by decide +kernel,
    by decide +kernel, by decide +kernel, by decide +kernel, by decide +kernel, by decide +kernel,
    by decide +kernel, by decide +kernel, by decide +kernel⟩

end mvh.block
