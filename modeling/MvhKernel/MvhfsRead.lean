-- What a read gives: the bytes of the copy that the entry of the file names, and a result
-- that says if their checksum is the one in the entry.
import MvhKernel.MvhfsMount

open flat_memory write_list mvh.block mvh.crc

namespace mvh.mvhfs

/-! ## The fields of an entry -/

def usedAt (directory : Buffer 2048) (i : Nat) : UInt32 := load32 directory.bytes (entry_at i + 32)

def sizeAt (directory : Buffer 2048) (i : Nat) : UInt32 := load32 directory.bytes (entry_at i + 36)

def crcAt (directory : Buffer 2048) (i : Nat) : UInt32 := load32 directory.bytes (entry_at i + 40)

def slotAt (directory : Buffer 2048) (i : Nat) : UInt32 := load32 directory.bytes (entry_at i + 44)

theorem find_entry_some {fs : Mvhfs} {t : Mem} {i : Nat} (h : find_entry fs t = some i) :
    i < 32 ∧ usedAt fs.directory i ≠ 0 := by
  unfold find_entry at h
  have hm := List.mem_of_find?_eq_some h
  have hn := List.find?_some h
  refine ⟨List.mem_range.mp hm, ?_⟩
  grind [load32_shift, entry_name_equal, usedAt]

theorem fileOf_some {fs : Mvhfs} {t : Mem} {i : Nat} (h : fileOf fs t = some i) :
    i < 32 ∧ usedAt fs.directory i ≠ 0 ∧ valid_name (some t) = true ∧
      find_entry fs t = some i := by
  unfold fileOf at h
  split at h
  · cases h
  · rename_i hg
    obtain ⟨hi, hu⟩ := find_entry_some h
    grind

/-! ## The bytes of a copy -/

def dataFrom (disk : Nat → Buffer 512) (lba : Nat) : Mem :=
  fun k => (disk (lba + k / 512)).bytes (k % 512)

def readData (disk : Nat → Buffer 512) (lba : Nat) (size crc : UInt32) : ReadResult :=
  ⟨if crc32 (some (dataFrom disk lba)) size.toNat = crc then 0 else -3, some size,
    slice (dataFrom disk lba) 0 size.toNat⟩

def readEntry (disk : Nat → Buffer 512) (fs : Mvhfs) (i : Nat) (buffer : Bool) (capacity : UInt32) :
    ReadResult :=
  let size := sizeAt fs.directory i
  if size.toNat > MVHFS_FILE_MAX ∨ capacity < size ∨ (buffer = false ∧ size ≠ 0) then
    ⟨-2, some size, []⟩
  else if slotAt fs.directory i > 1 then ⟨-3, some size, []⟩
  else readData disk (data_lba i (slotAt fs.directory i)) size (crcAt fs.directory i)

def readOn (disk : Nat → Buffer 512) (fs : Mvhfs) (name : Option Mem) (buffer : Bool)
    (capacity : UInt32) (size : Bool) : ReadResult :=
  match name with
  | none => ⟨-1, none, []⟩
  | some text =>
    if size = false then ⟨-1, none, []⟩
    else match fileOf fs text with
      | none => ⟨-1, none, []⟩
      | some i => readEntry disk fs i buffer capacity

theorem mvhfs_read_loop_eq {m : Machine} {id : UInt32} {d : BlockDevice} (h : HasSectors m id d)
    {lba size : Nat} (hl : lba + (size + 511) / 512 ≤ d.sector_count.toNat) (e : UInt32)
    (fuel k : Nat) (hf : size ≤ min (k * 512) size + fuel) :
    mvhfs_read_loop id lba size e fuel k (min (k * 512) size)
        (crc32 (some (dataFrom (m.disk id) lba)) (min (k * 512) size))
        (slice (dataFrom (m.disk id) lba) 0 (min (k * 512) size)) m =
      (some (if crc32 (some (dataFrom (m.disk id) lba)) size = e then 0 else -3,
        slice (dataFrom (m.disk id) lba) 0 size), m) := by
  induction fuel generalizing k with
  | zero =>
    have he : min (k * 512) size = size := by omega
    simp only [mvhfs_read_loop, he, Io.pure_apply]
  | succ fuel ih =>
    by_cases hlt : min (k * 512) size < size
    · obtain ⟨b, hr, hb⟩ := block_read_eq h (show lba + k < d.sector_count.toNat by omega)
      have hfl : size ≤ min ((k + 1) * 512) size + fuel := by grind
      have hc : (if size - min (k * 512) size > MVHFS_SECTOR_SIZE then MVHFS_SECTOR_SIZE
          else size - min (k * 512) size) = min 512 (size - k * 512) := by grind [MVHFS_SECTOR_SIZE]
      have ho : min (k * 512) size + min 512 (size - k * 512) = min ((k + 1) * 512) size := by omega
      have hby : ∀ i < min 512 (size - k * 512),
          b i = dataFrom (m.disk id) lba (min (k * 512) size + i) := by
        intro i hi
        have hd : (min (k * 512) size + i) / 512 = k := by omega
        have hm : (min (k * 512) size + i) % 512 = i := by omega
        grind [Buffer.bytes_ofMem, dataFrom]
      have hcr : crc32_update (crc32 (some (dataFrom (m.disk id) lba)) (min (k * 512) size))
          (some b) (min 512 (size - k * 512)) =
          crc32 (some (dataFrom (m.disk id) lba)) (min ((k + 1) * 512) size) := by
        rw [← ho, crc32_add]
        grind [crc32_update_congr]
      have hot : slice (dataFrom (m.disk id) lba) 0 (min (k * 512) size) ++
          slice b 0 (min 512 (size - k * 512)) =
          slice (dataFrom (m.disk id) lba) 0 (min ((k + 1) * 512) size) := by
        rw [← ho, slice_append]
        grind [slice_congr]
      rw [mvhfs_read_loop, if_pos hlt]
      simp only [hc]
      rw [Io.bind_some _ hr]
      simp only [ho, hcr, hot]
      exact ih (k + 1) hfl
    · have he : min (k * 512) size = size := by omega
      simp [mvhfs_read_loop, hlt, he, Io.pure_apply]

theorem data_lba_eq (file : Nat) (s : UInt32) :
    data_lba file s = 10 + 16 * file + 8 * s.toNat := by
  simp only [data_lba, MVHFS_DATA_LBA, MVHFS_SECTORS_PER_COPY]
  omega

theorem toNat_le_one {s : UInt32} (h : ¬ s > 1) : s.toNat ≤ 1 := by
  rw [gt_iff_lt, UInt32.not_lt, UInt32.le_iff_toNat_le] at h
  exact h

theorem mvhfs_read_eq {m : Machine} {fs : Mvhfs} {d : BlockDevice}
    (h : HasSectors m fs.device_id d) (hc : MVHFS_MIN_SECTORS ≤ d.sector_count)
    (n : Option Mem) (buffer : Bool) (c : UInt32) (s : Bool) :
    mvhfs_read fs n buffer c s m =
      (some (readOn (m.disk fs.device_id) fs n buffer c s), m) := by
  have hm : 522 ≤ d.sector_count.toNat := hc
  rcases n with _ | t
  · rfl
  · unfold mvhfs_read readOn fileOf
    simp only
    by_cases hg : fs.mounted = 0 ∨ valid_name (some t) = false
    · grind
    · cases s with
      | false => simp
      | true =>
        rw [if_neg (by simpa using hg), if_neg (by simp), if_neg hg]
        rcases hf : find_entry fs t with _ | i
        · rfl
        · obtain ⟨hi, _⟩ := find_entry_some hf
          simp only [readEntry]
          rw [show load32 fs.directory.bytes (entry_at i + 36) = sizeAt fs.directory i from rfl,
            show load32 fs.directory.bytes (entry_at i + 44) = slotAt fs.directory i from rfl,
            show load32 fs.directory.bytes (entry_at i + 40) = crcAt fs.directory i from rfl]
          split
          · rfl
          · rename_i hsz
            split
            · rfl
            · rename_i hsl
              have hs := toNat_le_one hsl
              have hlb := data_lba_eq i (slotAt fs.directory i)
              have hft : (sizeAt fs.directory i).toNat ≤ 4096 := by
                have := not_or.mp hsz
                exact Nat.not_lt.mp this.1
              have hl := mvhfs_read_loop_eq h
                (show data_lba i (slotAt fs.directory i) + ((sizeAt fs.directory i).toNat + 511) / 512 ≤
                  d.sector_count.toNat by omega)
                (crcAt fs.directory i) (sizeAt fs.directory i).toNat 0 (by omega)
              rw [Nat.zero_mul, Nat.zero_min, crc32_zero, slice_zero] at hl
              rw [Io.bind_some _ hl]
              rfl

/-! ## What a read depends on -/

def LiveIn (directory : Buffer 2048) (lba : Nat) : Prop :=
  ∃ i < 32, usedAt directory i ≠ 0 ∧ (sizeAt directory i).toNat ≤ 4096 ∧ slotAt directory i ≤ 1 ∧
    ∃ k, k * 512 < (sizeAt directory i).toNat ∧ lba = data_lba i (slotAt directory i) + k

def Live (fs : Mvhfs) (lba : Nat) : Prop := LiveIn fs.directory lba

theorem dataFrom_congr {d d' : Nat → Buffer 512} {lba s : Nat}
    (h : ∀ k, k * 512 < s → d (lba + k) = d' (lba + k)) :
    ∀ i < s, dataFrom d lba i = dataFrom d' lba i := by
  intro i hi
  grind [dataFrom]

theorem readData_congr {d d' : Nat → Buffer 512} {lba : Nat} {s : UInt32}
    (h : ∀ k, k * 512 < s.toNat → d (lba + k) = d' (lba + k)) (crc : UInt32) :
    readData d lba s crc = readData d' lba s crc := by
  have hd := dataFrom_congr h
  have hs : slice (dataFrom d lba) 0 s.toNat = slice (dataFrom d' lba) 0 s.toNat := by
    apply slice_congr
    grind
  grind [crc32_congr, readData]

theorem readOn_congr {d d' : Nat → Buffer 512} {fs : Mvhfs}
    (h : ∀ lba, Live fs lba → d lba = d' lba) : readOn d fs = readOn d' fs := by
  funext name buffer capacity size
  rcases name with _ | t
  · rfl
  · unfold readOn
    simp only
    split
    · rfl
    · rcases hf : fileOf fs t with _ | i
      · rfl
      · obtain ⟨hi, hu, _⟩ := fileOf_some hf
        simp only [readEntry]
        split
        · rfl
        · rename_i hs
          split
          · rfl
          · rename_i hsl
            have hft : (sizeAt fs.directory i).toNat ≤ 4096 := by
              have := not_or.mp hs
              exact Nat.not_lt.mp this.1
            apply readData_congr
            intro k hk
            exact h _ ⟨i, hi, hu, hft, UInt32.not_lt.mp hsl, k, hk, rfl⟩

end mvh.mvhfs
