-- What a mount finds on the disk, and what a read then gives.
import MvhKernel.MvhfsSteps

open flat_memory write_list mvh.block mvh.crc

namespace mvh.mvhfs

/-! ## Superblocks -/

/-- The sector of a superblock slot after its check, or `none` when it is not valid. -/
def superOn (disk : Nat → Buffer 512) (device : BlockDevice) (slot : UInt32) :
    Option (Buffer 512) :=
  let (status, sector) := validate_superblock (disk slot.toNat) device
  if status = 0 then some sector else none

def rawSuperblock (count generation : UInt64) (slot crc : UInt32) : Mem :=
  let sector := copy cleared 0 mvhfs_magic 0 8
  let sector := store32 sector 8 MVHFS_VERSION
  let sector := store32 sector 12 512
  let sector := store64 sector 16 count
  let sector := store64 sector 24 generation
  let sector := store32 sector 32 slot
  let sector := store32 sector 36 32
  let sector := store32 sector 40 crc
  let sector := store32 sector 44 MVHFS_CLEAN_MARKER
  let sector := store32 sector 52 10
  store32 sector 56 8

section
variable (count generation : UInt64) (slot crc : UInt32)

theorem build_superblock_eq : build_superblock count generation slot crc =
    Buffer.ofMem 512 (store32 (rawSuperblock count generation slot crc) 48
      (crc32 (some (rawSuperblock count generation slot crc)) 512)) := rfl

theorem rawSuperblock_crc_field {i : Nat} (h1 : 48 ≤ i) (h2 : i < 52) :
    rawSuperblock count generation slot crc i = 0 := by
  unfold rawSuperblock
  rw [store32_outside _ _ (by omega), store32_outside _ _ (by omega),
    store32_outside _ _ (by omega), store32_outside _ _ (by omega),
    store32_outside _ _ (by omega), store32_outside _ _ (by omega),
    store64_outside _ _ (by omega), store64_outside _ _ (by omega),
    store32_outside _ _ (by omega), store32_outside _ _ (by omega), copy_outside _ _ (by omega)]
  rfl

theorem rawSuperblock_magic {i : Nat} (h : i < 8) :
    rawSuperblock count generation slot crc i = mvhfs_magic i := by
  unfold rawSuperblock
  rw [store32_outside _ _ (by omega), store32_outside _ _ (by omega),
    store32_outside _ _ (by omega), store32_outside _ _ (by omega),
    store32_outside _ _ (by omega), store32_outside _ _ (by omega),
    store64_outside _ _ (by omega), store64_outside _ _ (by omega),
    store32_outside _ _ (by omega), store32_outside _ _ (by omega),
    copy_inside _ _ (by omega) (by omega)]
  simp

theorem store32_zero_inside (m : Mem) {a i : Nat} (h1 : a ≤ i) (h2 : i < a + 4) :
    store32 m a 0 i = 0 := by
  rcases (by omega : i = a ∨ i = a + 1 ∨ i = a + 2 ∨ i = a + 3) with rfl | rfl | rfl | rfl <;>
    simp [store32, setByte]

theorem build_superblock_cleared :
    Buffer.ofMem 512 (store32 (build_superblock count generation slot crc).bytes 48 0) =
      Buffer.ofMem 512 (rawSuperblock count generation slot crc) := by
  apply Buffer.ofMem_congr
  grind [store32_zero_inside, rawSuperblock_crc_field, store32_outside, build_superblock_eq, Buffer.bytes_ofMem]

theorem load32_build_superblock {a : Nat} (h : a + 4 ≤ 48 ∨ 52 ≤ a ∧ a + 4 ≤ 512) :
    load32 (build_superblock count generation slot crc).bytes a =
      load32 (rawSuperblock count generation slot crc) a := by
  rw [build_superblock_eq, Buffer.load32_ofMem _ (by omega), load32_store32_ne _ _ (by omega)]

theorem load64_build_superblock {a : Nat} (h : a + 8 ≤ 48) :
    load64 (build_superblock count generation slot crc).bytes a =
      load64 (rawSuperblock count generation slot crc) a := by
  rw [build_superblock_eq, Buffer.load64_ofMem _ (by omega), load64_store32_ne _ _ (by omega)]

theorem validate_build_superblock (d : BlockDevice) (h1 : MVHFS_MIN_SECTORS ≤ count)
    (h2 : count ≤ d.sector_count) (hs : slot ≤ 1) :
    validate_superblock (build_superblock count generation slot crc) d =
      (0, Buffer.ofMem 512 (rawSuperblock count generation slot crc)) := by
  have hm : slice (build_superblock count generation slot crc).bytes 0 8 =
      slice mvhfs_magic 0 8 := by
    apply slice_congr
    intro i hi
    rw [Nat.zero_add, build_superblock_eq, Buffer.bytes_ofMem _ (by omega),
      store32_outside _ _ (by omega), rawSuperblock_magic count generation slot crc hi]
  have hc : load32 (build_superblock count generation slot crc).bytes 48 =
      crc32 (some (rawSuperblock count generation slot crc)) 512 := by
    rw [build_superblock_eq, Buffer.load32_ofMem _ (by omega), load32_store32]
  have hsm : crc32 (some (Buffer.ofMem 512 (rawSuperblock count generation slot crc)).bytes) 512 =
      crc32 (some (rawSuperblock count generation slot crc)) 512 :=
    crc32_congr fun i hi => Buffer.bytes_ofMem _ hi
  unfold validate_superblock
  simp only [hm, hc, build_superblock_cleared]
  rw [if_neg]
  · simp [hsm, MVHFS_SECTOR_SIZE]
  · simp (disch := omega) only [load32_build_superblock, load64_build_superblock, rawSuperblock,
      load32_store32_ne, load32_store64_ne, load64_store32_ne, load64_store64_ne, load32_store32,
      load64_store64]
    simp [h1, h2, hs]

theorem load_rawSuperblock :
    load32 (Buffer.ofMem 512 (rawSuperblock count generation slot crc)).bytes 32 = slot ∧
    load32 (Buffer.ofMem 512 (rawSuperblock count generation slot crc)).bytes 40 = crc ∧
    load64 (Buffer.ofMem 512 (rawSuperblock count generation slot crc)).bytes 24 = generation := by
  rw [Buffer.load32_ofMem _ (by omega), Buffer.load32_ofMem _ (by omega),
    Buffer.load64_ofMem _ (by omega)]
  simp (disch := omega) [rawSuperblock, load32_store32_ne, load64_store32_ne]

end

/-! ## Directory copies -/

def directoryOn (disk : Nat → Buffer 512) (slot : UInt32) : Buffer 2048 :=
  Buffer.ofMem 2048 fun i => (disk (directory_lba slot + i / 512)).bytes (i % 512)

theorem directory_lba_cases (slot : UInt32) : directory_lba slot = 2 ∨ directory_lba slot = 6 := by
  unfold directory_lba
  split
  · exact Or.inl rfl
  · exact Or.inr rfl

theorem directoryOn_congr {d d' : Nat → Buffer 512} {slot : UInt32}
    (h : ∀ k < 4, d (directory_lba slot + k) = d' (directory_lba slot + k)) :
    directoryOn d slot = directoryOn d' slot := by
  apply Buffer.ofMem_congr
  intro i hi
  rw [h (i / 512) (by omega)]

theorem directoryOn_eq {d : Nat → Buffer 512} {slot : UInt32} {directory : Buffer 2048}
    (h : ∀ k < 4, d (directory_lba slot + k) = sectorOf directory k) :
    directoryOn d slot = directory := by
  apply Buffer.ext_bytes
  intro i hi
  rw [directoryOn, Buffer.bytes_ofMem _ hi, h (i / 512) (by omega), sectorOf,
    Buffer.bytes_ofMem _ (by omega), shift_apply]
  congr 1
  omega

theorem read_directory_loop_eq {m : Machine} {id slot : UInt32} {d : BlockDevice}
    (h : HasSectors m id d) (hc : 10 ≤ d.sector_count.toNat) (dr : Buffer 2048) :
    read_directory_loop id slot (List.range MVHFS_DIRECTORY_SECTORS) dr m =
      (some (0, directoryOn (m.disk id) slot), m) := by
  have hl := directory_lba_cases slot
  have hrn : List.range MVHFS_DIRECTORY_SECTORS = [0, 1, 2, 3] := rfl
  have hr : ∀ k < 4, ∃ bt, block_read id (directory_lba slot + k) 1 m = (some (some bt), m) ∧
      Buffer.ofMem 512 bt = m.disk id (directory_lba slot + k) := by
    intro k hk
    exact block_read_eq h (by omega)
  obtain ⟨b0, hr0, hb0⟩ := hr 0 (by omega)
  obtain ⟨b1, hr1, hb1⟩ := hr 1 (by omega)
  obtain ⟨b2, hr2, hb2⟩ := hr 2 (by omega)
  obtain ⟨b3, hr3, hb3⟩ := hr 3 (by omega)
  rw [hrn]
  simp only [read_directory_loop, Io.bind_apply, hr0, hr1, hr2, hr3, Io.pure_apply]
  congr 3
  apply Buffer.ext_bytes
  intro i hi
  rw [directoryOn, Buffer.bytes_ofMem _ hi, Buffer.bytes_ofMem _ hi]
  simp only [MVHFS_SECTOR_SIZE]
  -- The last sector that covers the byte is the one that stays.
  have hs : ∀ (b : Mem) (k : Nat), Buffer.ofMem 512 b = m.disk id (directory_lba slot + k) →
      i / 512 = k → b (0 + (i - k * 512)) =
        (m.disk id (directory_lba slot + i / 512)).bytes (i % 512) := by grind [Buffer.bytes_ofMem]
  rcases (by omega : i / 512 = 0 ∨ i / 512 = 1 ∨ i / 512 = 2 ∨ i / 512 = 3) with hk | hk | hk | hk
  · grind [copy_outside, Buffer.bytes_ofMem, copy_inside]
  · grind [copy_outside, Buffer.bytes_ofMem, copy_inside]
  · grind [copy_outside, Buffer.bytes_ofMem, copy_inside]
  grind

/-! ## Candidates -/

def handleOf (disk : Nat → Buffer 512) (id slot : UInt32) (superblock : Buffer 512) : Mvhfs :=
  { device_id := id
    superblock_slot := slot
    directory_slot := load32 superblock.bytes 32
    generation := load64 superblock.bytes 24
    mounted := 1
    directory := directoryOn disk (load32 superblock.bytes 32) }

/-- The handle of a checked superblock, when its directory copy has its checksum. -/
def handleFrom (disk : Nat → Buffer 512) (id slot : UInt32) (superblock : Buffer 512) :
    Option Mvhfs :=
  if directoryCrc (directoryOn disk (load32 superblock.bytes 32)) = load32 superblock.bytes 40
  then some (handleOf disk id slot superblock) else none

def candidate (disk : Nat → Buffer 512) (device : BlockDevice) (id slot : UInt32) : Option Mvhfs :=
  (superOn disk device slot).bind (handleFrom disk id slot)

def better : Option Mvhfs → Option Mvhfs → Option Mvhfs
  | none, b => b
  | some a, none => some a
  | some a, some b => if a.generation ≥ b.generation then some a else some b

def mountable (disk : Nat → Buffer 512) (device : BlockDevice) (id : UInt32) : Option Mvhfs :=
  better (candidate disk device id 0) (candidate disk device id 1)

theorem none_better (b : Option Mvhfs) : better none b = b := rfl

theorem better_none (a : Option Mvhfs) : better a none = a := by
  cases a <;> rfl

theorem handleFrom_generation {d : Nat → Buffer 512} {id slot : UInt32} {s : Buffer 512}
    {fs : Mvhfs} (h : handleFrom d id slot s = some fs) :
    fs.generation = load64 s.bytes 24 := by
  unfold handleFrom at h
  split at h
  · cases h; rfl
  · cases h

theorem read_directory_eq {m : Machine} {id slot : UInt32} {d : BlockDevice}
    (h : HasSectors m id d) (hc : 10 ≤ d.sector_count.toNat) (dr : Buffer 2048)
    (crc : UInt32) :
    read_directory id slot dr crc m =
      (some (if directoryCrc (directoryOn (m.disk id) slot) = crc then 0 else -1,
        directoryOn (m.disk id) slot), m) := by
  unfold read_directory
  rw [Io.bind_some _ (read_directory_loop_eq h hc dr)]
  by_cases hcr : crc32 (some (directoryOn (m.disk id) slot).bytes) MVHFS_DIRECTORY_BYTES = crc
  · have hc' : directoryCrc (directoryOn (m.disk id) slot) = crc := hcr
    grind
  · have hc' : ¬ directoryCrc (directoryOn (m.disk id) slot) = crc := hcr
    grind

theorem mount_from_superblock_eq {m : Machine} {id : UInt32} {d : BlockDevice}
    (h : HasSectors m id d) (hc : 10 ≤ d.sector_count.toNat) (fs : Mvhfs) (slot : UInt32)
    (s : Buffer 512) :
    mount_from_superblock fs id slot s m =
      (some ((handleFrom (m.disk id) id slot s).elim
        (-1, { fs with directory := directoryOn (m.disk id) (load32 s.bytes 32) })
        fun f => (0, f)), m) := by
  unfold mount_from_superblock handleFrom
  simp only
  rw [Io.bind_some _ (read_directory_eq h hc fs.directory _)]
  by_cases hcr : directoryCrc (directoryOn (m.disk id) (load32 s.bytes 32)) =
      load32 s.bytes 40
  · rw [if_pos hcr, if_pos hcr]
    rfl
  simp [hcr]

theorem mount_or_else {m : Machine} {id : UInt32} {d : BlockDevice} (h : HasSectors m id d)
    (hc : 10 ≤ d.sector_count.toNat) (fs : Mvhfs) (s t : UInt32) (a b : Buffer 512) :
    (do
      let (status, fs) ← mount_from_superblock fs id s a
      if status = 0 then pure (0, fs) else mount_from_superblock fs id t b : Io (Int × Mvhfs)) m =
      (some (((handleFrom (m.disk id) id s a).or (handleFrom (m.disk id) id t b)).elim
        (-1, { fs with directory := directoryOn (m.disk id) (load32 b.bytes 32) })
        fun f => (0, f)), m) := by
  have hf := mount_from_superblock_eq h hc fs s a
  rcases hs : handleFrom (m.disk id) id s a with _ | f
  · rw [hs, Option.elim_none] at hf
    have hne : ¬ ((-1 : Int) = 0) := by decide
    grind [Io.bind_some, Option.none_or, mount_from_superblock_eq]
  grind [Option.elim_some, Io.bind_some]

theorem better_of_ge {d : Nat → Buffer 512} {id s t : UInt32} {a b : Buffer 512}
    (h : load64 a.bytes 24 ≥ load64 b.bytes 24) :
    better (handleFrom d id s a) (handleFrom d id t b) =
      (handleFrom d id s a).or (handleFrom d id t b) := by
  rcases ha : handleFrom d id s a with _ | x <;> rcases hb : handleFrom d id t b with _ | y
  · rfl
  · rfl
  · rfl
  · have hg : x.generation ≥ y.generation := by grind [handleFrom_generation]
    simp [better, hg]

theorem better_of_lt {d : Nat → Buffer 512} {id s t : UInt32} {a b : Buffer 512}
    (h : ¬ load64 a.bytes 24 ≥ load64 b.bytes 24) :
    better (handleFrom d id s a) (handleFrom d id t b) =
      (handleFrom d id t b).or (handleFrom d id s a) := by
  rcases ha : handleFrom d id s a with _ | x <;> rcases hb : handleFrom d id t b with _ | y
  · rfl
  · rfl
  · rfl
  · have hg : ¬ x.generation ≥ y.generation := by grind [handleFrom_generation]
    simp [better, hg]

theorem read_superblock_eq {m : Machine} {id : UInt32} {d : BlockDevice} (h : HasSectors m id d)
    (slot : UInt32) (hs : slot.toNat < d.sector_count.toNat) :
    read_superblock id d slot.toNat m = (some (superOn (m.disk id) d slot), m) := by
  obtain ⟨b, hr, hb⟩ := block_read_eq h hs
  unfold read_superblock superOn
  grind [Io.bind_some, Io.pure_apply]

theorem mount_newest_eq {m : Machine} {id : UInt32} {d : BlockDevice} (h : HasSectors m id d)
    (hc : 10 ≤ d.sector_count.toNat) (fs : Mvhfs) (first s : Option (Buffer 512)) :
    ∃ failed, failed.mounted = fs.mounted ∧ mount_newest fs id first s m =
      (some ((better (first.bind (handleFrom (m.disk id) id 0))
        (s.bind (handleFrom (m.disk id) id 1))).elim (-1, failed) fun f => (0, f)),
        m) := by
  rcases first with _ | first <;> rcases s with _ | s
  · exact ⟨fs, rfl, rfl⟩
  · rw [Option.bind_none, Option.bind_some, none_better, mount_newest]
    exact ⟨{ fs with directory := directoryOn (m.disk id) (load32 s.bytes 32) }, rfl,
      mount_from_superblock_eq h hc fs 1 s⟩
  · rw [Option.bind_none, Option.bind_some, better_none, mount_newest]
    exact ⟨{ fs with directory := directoryOn (m.disk id) (load32 first.bytes 32) }, rfl,
      mount_from_superblock_eq h hc fs 0 first⟩
  · rw [Option.bind_some, Option.bind_some, mount_newest]
    by_cases hg : load64 first.bytes 24 ≥ load64 s.bytes 24
    · rw [if_pos hg, better_of_ge hg]
      exact ⟨{ fs with directory := directoryOn (m.disk id) (load32 s.bytes 32) }, rfl,
        mount_or_else h hc fs 0 1 first s⟩
    · rw [if_neg hg, better_of_lt hg]
      exact ⟨{ fs with directory := directoryOn (m.disk id) (load32 first.bytes 32) }, rfl,
        mount_or_else h hc fs 1 0 s first⟩

theorem mvhfs_mount_eq {m : Machine} {id : UInt32} {d : BlockDevice} (h : HasSectors m id d)
    (hc : MVHFS_MIN_SECTORS ≤ d.sector_count) (fs : Mvhfs) :
    ∃ failed, failed.mounted = 0 ∧ mvhfs_mount fs id m =
      (some ((mountable (m.disk id) d id).elim (-1, failed) fun f => (0, f)), m) := by
  have hmn : 522 ≤ d.sector_count.toNat := hc
  have hg : ¬ (d.sector_size ≠ 512 ∨ d.sector_count < MVHFS_MIN_SECTORS) := by
    rintro (h1 | h1)
    · exact h1 h.size
    · exact UInt64.not_lt.mpr hc h1
  have hfr : read_superblock id d 0 m = (some (superOn (m.disk id) d 0), m) :=
    read_superblock_eq h 0 (by simp; omega)
  have hs : read_superblock id d 1 m = (some (superOn (m.disk id) d 1), m) :=
    read_superblock_eq h 1 (by simp; omega)
  obtain ⟨failed, hf, hm⟩ := mount_newest_eq h (by omega) { fs with mounted := 0 }
    (superOn (m.disk id) d 0) (superOn (m.disk id) d 1)
  refine ⟨failed, hf, ?_⟩
  unfold mvhfs_mount
  rw [Io.bind_some _ (get_device_eq h.get)]
  simp only [if_neg hg]
  rw [Io.bind_some _ hfr, Io.bind_some _ hs]
  exact hm

theorem mvhfs_mount_some {m m' : Machine} {id : UInt32} {fs0 fs : Mvhfs}
    (h : mvhfs_mount fs0 id m = (some (0, fs), m')) :
    ∃ d, HasSectors m id d ∧ MVHFS_MIN_SECTORS ≤ d.sector_count ∧
      mountable (m.disk id) d id = some fs ∧ m' = m := by
  have hdv : ∃ d, HasSectors m id d ∧ MVHFS_MIN_SECTORS ≤ d.sector_count := by
    unfold mvhfs_mount at h
    rw [Io.bind_apply] at h
    simp only [get_device] at h
    rcases hd : device_info m.table id with _ | d
    · rw [hd] at h
      cases h
    · rw [hd] at h
      simp only at h
      split at h
      · cases h
      · rename_i hg
        simp only [not_or, not_not, UInt64.not_lt] at hg
        exact ⟨d, ⟨device_info_some hd, hg.1⟩, hg.2⟩
  obtain ⟨d, hd, hc⟩ := hdv
  obtain ⟨failed, _, hm⟩ := mvhfs_mount_eq hd hc fs0
  rw [h] at hm
  obtain ⟨hr, rfl⟩ := Prod.mk.inj hm
  refine ⟨d, hd, hc, ?_, rfl⟩
  rcases hf : mountable (m'.disk id) d id with _ | f
  · grind
  grind

end mvh.mvhfs
