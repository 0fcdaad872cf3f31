-- What holds of the disk between any two calls, whatever came before: the superblock and
-- the directory copy of the handle are whole, and no call writes a sector that the handle
-- still needs before its last write.
import MvhKernel.MvhfsRead

open flat_memory write_list mvh.block mvh.crc

namespace mvh.mvhfs

/-! ## The selectors of a directory -/

/-- Each of the eight entries in a directory sector names data copy 0 or 1. -/
def SelectorsOk (sector : Buffer 512) : Prop := ∀ j < 8, load32 sector.bytes (j * 64 + 44) ≤ 1

def SlotsOk (directory : Buffer 2048) : Prop := ∀ i < 32, slotAt directory i ≤ 1

theorem load32_directoryOn (disk : Nat → Buffer 512) (s : UInt32) {i off : Nat} (hi : i < 32)
    (ho : off + 4 ≤ 64) :
    load32 (directoryOn disk s).bytes (entry_at i + off) =
      load32 (disk (directory_lba s + i / 8)).bytes (i % 8 * 64 + off) := by
  have he : entry_at i = i * 64 := rfl
  rw [directoryOn, he, Buffer.load32_ofMem _ (by omega)]
  apply load32_congr
  intro x hx
  have hd : (i * 64 + off + x) / 512 = i / 8 := by omega
  have hm : (i * 64 + off + x) % 512 = i % 8 * 64 + off + x := by omega
  rw [hd, hm]

theorem load32_sectorOf (dr : Buffer 2048) {k j off : Nat} (hj : j < 8) (ho : off + 4 ≤ 64) :
    load32 (sectorOf dr k).bytes (j * 64 + off) =
      load32 dr.bytes (entry_at (k * 8 + j) + off) := by
  have he : entry_at (k * 8 + j) = (k * 8 + j) * 64 := rfl
  grind [sectorOf, Buffer.load32_ofMem, load32_shift]

theorem slotsOk_directoryOn {disk : Nat → Buffer 512} {s : UInt32}
    (h : ∀ k < 4, SelectorsOk (disk (directory_lba s + k))) :
    SlotsOk (directoryOn disk s) := by
  intro i hi
  rw [slotAt, load32_directoryOn disk s hi (by omega)]
  exact h (i / 8) (by omega) (i % 8) (by omega)

theorem selectorsOk_sectorOf {dr : Buffer 2048} (h : SlotsOk dr) {k : Nat}
    (hk : k < 4) : SelectorsOk (sectorOf dr k) := by
  intro j hj
  rw [load32_sectorOf dr hj (by omega)]
  exact h _ (by omega)

theorem load32_edit_ne (fs : Mvhfs) {i j off : Nat} {f : Mem → Mem} (hf : EditsEntry (entry_at i) f)
    (hj : j < 32) (hij : j ≠ i) (ho : off + 4 ≤ 64) :
    load32 (fs.edit f).directory.bytes (entry_at j + off) =
      load32 fs.directory.bytes (entry_at j + off) := by
  have he : ∀ n, entry_at n = n * 64 := fun _ => rfl
  simp only [he] at hf ⊢
  rw [Mvhfs.edit, Buffer.load32_ofMem _ (by omega)]
  apply load32_congr
  intro x hx
  exact hf _ _ (by omega)

theorem load32_edit (fs : Mvhfs) {i off : Nat} (f : Mem → Mem) (hi : i < 32) (ho : off + 4 ≤ 64) :
    load32 (fs.edit f).directory.bytes (entry_at i + off) =
      load32 (f fs.directory.bytes) (entry_at i + off) := by
  have he : entry_at i = i * 64 := rfl
  rw [he, Mvhfs.edit, Buffer.load32_ofMem _ (by omega)]

theorem slotsOk_edit {fs : Mvhfs} {i : Nat} {f : Mem → Mem} (hf : EditsEntry (entry_at i) f)
    (h : SlotsOk fs.directory) (hi : load32 (f fs.directory.bytes) (entry_at i + 44) ≤ 1) :
    SlotsOk (fs.edit f).directory := by
  intro j hj
  by_cases hij : j = i
  · subst hij
    unfold slotAt
    rw [load32_edit fs f hj (by omega)]
    exact hi
  · unfold slotAt
    rw [load32_edit_ne fs hf hj hij (by omega)]
    exact h j hj

theorem load32_fill_zero (m : Mem) {a n b : Nat} (h1 : a ≤ b) (h2 : b + 4 ≤ a + n) :
    load32 (fill m a n 0) b = 0 := by
  have hz : load32 (fill m a n 0) b = load32 (fun _ => 0) b := by
    apply load32_congr
    grind
  rw [hz]
  simp [load32]

/-! ## The places of a row of writes -/

/-- The data writes of a call go to the copy that the entry of the file does not name. -/
def SpareCopy (fs : Mvhfs) (ws : List (Nat × Buffer 512)) : Prop :=
  ∀ w ∈ ws, ∃ i < 32, usedAt fs.directory i ≠ 0 ∧
    ∃ k < 8, w.1 = data_lba i (slotAt fs.directory i ^^^ 1) + k

theorem find_free_some {fs : Mvhfs} {i : Nat} (h : find_free fs = some i) :
    i < 32 ∧ usedAt fs.directory i = 0 := by
  unfold find_free at h
  exact ⟨List.mem_range.mp (List.mem_of_find?_eq_some h), by simpa [usedAt] using List.find?_some h⟩

theorem planOf_some {fs fs1 : Mvhfs} {op : Op} {ws : List (Nat × Buffer 512)}
    (h : planOf fs op = some (ws, fs1)) :
    fs.mounted ≠ 0 ∧ SpareCopy fs ws ∧ ∃ i < 32, ∃ f, EditsEntry (entry_at i) f ∧ fs1 = fs.edit f ∧
      (SlotsOk fs.directory → load32 (f fs.directory.bytes) (entry_at i + 44) ≤ 1) := by
  have hm {t : Mem} {file : Nat} (hf : fileOf fs t = some file) : fs.mounted ≠ 0 := by
    grind [fileOf]
  rcases planOf_cases h with ⟨t, s, rfl, hmn, hfr, rfl, rfl⟩ |
    ⟨t, data, size, file, new_slot, rfl, hf, rfl, rfl, rfl⟩ | ⟨t, file, rfl, hf, rfl, rfl⟩
  · refine ⟨hmn, by simp [SpareCopy], s, (find_free_some hfr).1, _,
      createEdit_outside t (entry_at s), rfl, fun _ => ?_⟩
    simp [load32_store32, createEdit]
  · obtain ⟨hi, hu, _, _⟩ := fileOf_some hf
    refine ⟨hm hf, ?_, file, hi, _, writeEdit_outside _ _ _ _, rfl, fun hs => ?_⟩
    · intro w hw
      obtain ⟨k, hk, rfl⟩ := List.mem_map.mp hw
      exact ⟨file, hi, hu, k, List.mem_range.mp hk, rfl⟩
    · unfold writeEdit
      rw [load32_store32]
      exact xor_one_le (hs file hi)
  · obtain ⟨hi, _, _, _⟩ := fileOf_some hf
    refine ⟨hm hf, by simp [SpareCopy], file, hi, _, removeEdit_outside _, rfl, fun _ => ?_⟩
    simp [load32_fill_zero, MVHFS_ENTRY_SIZE, removeEdit]

/-- The sectors that the handle needs: its superblock, its directory copy and the bytes of
its files. -/
def Held (fs : Mvhfs) (lba : Nat) : Prop :=
  lba = fs.superblock_slot.toNat ∨ (∃ k < 4, lba = directory_lba fs.directory_slot + k) ∨ Live fs lba

theorem mem_row {fs fs1 : Mvhfs} {op : Op} {ws : List (Nat × Buffer 512)} {count : UInt64}
    (h : planOf fs op = some (ws, fs1)) {w : Nat × Buffer 512} (hw : w ∈ ws ++ commitWrites count fs1) :
    (∃ i < 32, usedAt fs.directory i ≠ 0 ∧
        ∃ k < 8, w.1 = data_lba i (slotAt fs.directory i ^^^ 1) + k) ∨
      (∃ k < 4, w = (directory_lba (fs.directory_slot ^^^ 1) + k, sectorOf fs1.directory k)) ∨
      w = ((fs.superblock_slot ^^^ 1).toNat, nextSuperblock count fs1) := by
  obtain ⟨_, hs, i, hi, f, _, rfl, _⟩ := planOf_some h
  rcases List.mem_append.mp hw with hw | hw
  · exact Or.inl (hs w hw)
  · rcases List.mem_append.mp hw with hw | hw
    · obtain ⟨k, hk, rfl⟩ := List.mem_map.mp hw
      exact Or.inr (Or.inl ⟨k, List.mem_range.mp hk, rfl⟩)
    · exact Or.inr (Or.inr (List.mem_singleton.mp hw))

theorem directory_lba_xor {s : UInt32} (h : s ≤ 1) :
    (directory_lba s = 2 ∧ directory_lba (s ^^^ 1) = 6) ∨
      (directory_lba s = 6 ∧ directory_lba (s ^^^ 1) = 2) := by
  rcases xor_one_cases h with ⟨h1, h2⟩ | ⟨h1, h2⟩
  · exact Or.inl (by rw [h2, h1]; exact ⟨rfl, rfl⟩)
  · exact Or.inr (by rw [h2, h1]; exact ⟨rfl, rfl⟩)

theorem toNat_xor_one {s : UInt32} (h : s ≤ 1) :
    (s.toNat = 0 ∧ (s ^^^ 1).toNat = 1) ∨ (s.toNat = 1 ∧ (s ^^^ 1).toNat = 0) := by
  rcases xor_one_cases h with ⟨h1, h2⟩ | ⟨h1, h2⟩
  · simp [h2, h1]
  · simp [h2, h1]

theorem data_lba_range {s : UInt32} (h : s ≤ 1) (i : Nat) :
    data_lba i s = 10 + 16 * i ∨ data_lba i s = 10 + 16 * i + 8 := by
  rw [data_lba_eq]
  grind

section
variable {fs fs1 : Mvhfs} {op : Op} {ws : List (Nat × Buffer 512)} {count : UInt64}

theorem row_in_area (h : planOf fs op = some (ws, fs1)) (hs : fs.superblock_slot ≤ 1)
    (hsl : SlotsOk fs.directory) : ∀ w ∈ ws ++ commitWrites count fs1, w.1 < 522 := by
  intro w hw
  rcases mem_row h hw with ⟨i, hi, _, k, hk, hl⟩ | ⟨k, hk, rfl⟩ | rfl
  · rcases data_lba_range (xor_one_le (hsl i hi)) i with h1 | h1 <;> omega
  · grind [directory_lba_cases]
  grind [toNat_xor_one]

theorem row_spares_held (h : planOf fs op = some (ws, fs1)) (hs : fs.superblock_slot ≤ 1)
    (hd : fs.directory_slot ≤ 1) (hst : SlotsOk fs.directory) {lba : Nat} (hh : Held fs lba) :
    ∀ w ∈ ws ++ commitWrites count fs1, w.1 ≠ lba := by
  intro w hw
  have hsp := toNat_xor_one hs
  have hdr := directory_lba_xor hd
  -- Each kind of write against each kind of sector that is needed.
  rcases mem_row h hw with ⟨i, hi, _, k, hk, hlb⟩ | ⟨k, hk, rfl⟩ | rfl
  · have hsr := data_lba_range (xor_one_le (hst i hi)) i
    rcases hh with rfl | ⟨k', hk', rfl⟩ | ⟨j, hj, _, hsz, hsl, k', hk', rfl⟩
    · omega
    · omega
    · by_cases hij : i = j
      · subst hij
        have hx := toNat_xor_one hsl
        grind [data_lba_eq]
      · grind [data_lba_range]
  · rcases hh with rfl | ⟨k', hk', rfl⟩ | ⟨j, hj, _, hsz, hsl, k', hk', rfl⟩
    · simp only
      omega
    · simp only
      omega
    · grind [data_lba_range]
  · rcases hh with rfl | ⟨k', hk', rfl⟩ | ⟨j, hj, _, hsz, hsl, k', hk', rfl⟩
    · simp only
      omega
    · simp only
      omega
    · grind [data_lba_range]

theorem slotsOk_planOf (h : planOf fs op = some (ws, fs1)) (hs : SlotsOk fs.directory) :
    SlotsOk fs1.directory := by
  obtain ⟨_, _, i, _, f, hf, rfl, hsl⟩ := planOf_some h
  exact slotsOk_edit hf hs (hsl hs)

end

/-! ## Candidates -/

theorem superOn_congr {disk d' : Nat → Buffer 512} {d : BlockDevice} {slot : UInt32}
    (h : d' slot.toNat = disk slot.toNat) : superOn d' d slot = superOn disk d slot := by
  unfold superOn
  rw [h]

theorem superOn_some {disk : Nat → Buffer 512} {d : BlockDevice} {sl : UInt32} {s : Buffer 512} :
    superOn disk d sl = some s ↔ (validate_superblock (disk sl.toNat) d).1 = 0 ∧
      s = Buffer.ofMem 512 (store32 (disk sl.toNat).bytes 48 0) := by
  have hc : (validate_superblock (disk sl.toNat) d).1 = 0 →
      (validate_superblock (disk sl.toNat) d).2 = Buffer.ofMem 512 (store32 (disk sl.toNat).bytes 48 0) := by
    grind [validate_superblock]
  grind [superOn]

theorem superOn_field {disk : Nat → Buffer 512} {d : BlockDevice} {sl : UInt32} {s : Buffer 512}
    (h : superOn disk d sl = some s) {a : Nat} (ha : a + 4 ≤ 48) :
    load32 s.bytes a = load32 (disk sl.toNat).bytes a := by
  obtain ⟨_, rfl⟩ := superOn_some.mp h
  grind [Buffer.load32_ofMem, load32_store32_ne]

theorem superOn_directory_slot {disk : Nat → Buffer 512} {d : BlockDevice} {sl : UInt32}
    {s : Buffer 512} (h : superOn disk d sl = some s) :
    load32 s.bytes 32 ≤ 1 := by
  rw [superOn_field h (by omega)]
  have hv := (superOn_some.mp h).1
  unfold validate_superblock at hv
  grind

theorem candidate_eq_some {disk : Nat → Buffer 512} {d : BlockDevice} {id sl : UInt32}
    {fs : Mvhfs} : candidate disk d id sl = some fs ↔
      ∃ s, superOn disk d sl = some s ∧ fs = handleOf disk id sl s ∧
        directoryCrc fs.directory = load32 s.bytes 40 := by
  unfold candidate
  rw [Option.bind_eq_some_iff]
  constructor
  · rintro ⟨s, hs, hh⟩
    unfold handleFrom at hh
    split at hh
    · rename_i hc
      cases hh
      exact ⟨s, hs, rfl, hc⟩
    · cases hh
  · rintro ⟨s, hs, rfl, hc⟩
    refine ⟨s, hs, ?_⟩
    unfold handleFrom
    exact if_pos hc

theorem candidate_of_agree {disk d' : Nat → Buffer 512} {d : BlockDevice} {id sl : UInt32}
    {fs : Mvhfs} (h : candidate disk d id sl = some fs) (hs : d' sl.toNat = disk sl.toNat)
    (hd : ∀ k < 4, d' (directory_lba fs.directory_slot + k) =
      disk (directory_lba fs.directory_slot + k)) :
    candidate d' d id sl = some fs := by
  obtain ⟨s, hsc, rfl, hc⟩ := candidate_eq_some.mp h
  have hdr : directoryOn d' (load32 s.bytes 32) = directoryOn disk (load32 s.bytes 32) :=
    directoryOn_congr hd
  refine candidate_eq_some.mpr ⟨s, by rw [superOn_congr hs]; exact hsc, ?_, hc⟩
  unfold handleOf
  rw [hdr]

theorem candidate_build {disk : Nat → Buffer 512} {d : BlockDevice} {fs : Mvhfs}
    (hc : MVHFS_MIN_SECTORS ≤ d.sector_count) (hd : fs.directory_slot ≤ 1) (hm : fs.mounted = 1)
    (hs : disk fs.superblock_slot.toNat = build_superblock d.sector_count fs.generation
      fs.directory_slot (directoryCrc fs.directory))
    (hdr : ∀ k < 4, disk (directory_lba fs.directory_slot + k) = sectorOf fs.directory k) :
    candidate disk d fs.device_id fs.superblock_slot = some fs := by
  obtain ⟨hsl, hcr, hg⟩ := load_rawSuperblock d.sector_count fs.generation fs.directory_slot
    (directoryCrc fs.directory)
  refine candidate_eq_some.mpr ⟨Buffer.ofMem 512 (rawSuperblock d.sector_count fs.generation
    fs.directory_slot (directoryCrc fs.directory)), ?_, ?_, hcr.symm⟩
  · grind [validate_build_superblock, superOn]
  · unfold handleOf
    rw [hsl, hg, directoryOn_eq hdr]
    cases fs
    grind

theorem commitWrites_nodup {fs : Mvhfs} (hs : fs.superblock_slot ≤ 1) (hd : fs.directory_slot ≤ 1)
    (count : UInt64) : ((commitWrites count fs).map Prod.fst).Nodup := by
  have hsp := toNat_xor_one hs
  have hdr := directory_lba_xor hd
  simp only [commitWrites, directoryWrites, List.range, List.range.loop, List.map_cons,
    List.map_nil, List.cons_append, List.nil_append, List.nodup_cons, List.mem_cons,
    List.not_mem_nil, or_false, List.nodup_nil, and_true, not_false_eq_true]
  omega

theorem candidate_commit {d : BlockDevice} {fs : Mvhfs} (disk : Nat → Buffer 512)
    (hc : MVHFS_MIN_SECTORS ≤ d.sector_count) (hs : fs.superblock_slot ≤ 1)
    (hd : fs.directory_slot ≤ 1) (hm : fs.mounted = 1) :
    candidate (apply disk (commitWrites d.sector_count fs)) d fs.device_id
      (fs.superblock_slot ^^^ 1) = some (committed fs) := by
  have hn := commitWrites_nodup hs hd d.sector_count
  refine @candidate_build _ d (committed fs) hc (xor_one_le hd) hm ?_ ?_
  · exact apply_of_mem _ _ hn (List.mem_append_right _ (List.mem_singleton.mpr rfl))
  · intro k hk
    exact apply_of_mem _ _ hn (List.mem_append_left _
      (List.mem_map.mpr ⟨k, List.mem_range.mpr hk, rfl⟩))

/-! ## The invariant -/

/-- What holds of the disk and a mounted handle between two calls. -/
structure Sound (disk : Nat → Buffer 512) (d : BlockDevice) (fs : Mvhfs) : Prop where
  room : MVHFS_MIN_SECTORS ≤ d.sector_count
  slot_le : fs.superblock_slot ≤ 1
  current : candidate disk d fs.device_id fs.superblock_slot = some fs
  other : ∃ sector, superOn disk d (fs.superblock_slot ^^^ 1) = some sector ∧
    (load64 sector.bytes 24 < fs.generation ∨ fs.generation = 0)
  selectors : ∀ lba, 2 ≤ lba → lba < 10 → SelectorsOk (disk lba)

section
variable {disk : Nat → Buffer 512} {d : BlockDevice} {fs : Mvhfs}

theorem Sound.directory_slot_le (h : Sound disk d fs) : fs.directory_slot ≤ 1 := by
  obtain ⟨s, hs, hfs, _⟩ := candidate_eq_some.mp h.current
  rw [hfs]
  exact superOn_directory_slot hs

theorem Sound.mounted (h : Sound disk d fs) : fs.mounted = 1 := by
  obtain ⟨s, _, hfs, _⟩ := candidate_eq_some.mp h.current
  rw [hfs]
  rfl

theorem Sound.directory (h : Sound disk d fs) :
    fs.directory = directoryOn disk fs.directory_slot := by
  obtain ⟨s, _, hfs, _⟩ := candidate_eq_some.mp h.current
  rw [hfs]
  rfl

theorem Sound.slots (h : Sound disk d fs) : SlotsOk fs.directory := by
  rw [h.directory]
  apply slotsOk_directoryOn
  intro k hk
  have := directory_lba_cases fs.directory_slot
  exact h.selectors _ (by omega) (by omega)

variable {op : Op} {ws : List (Nat × Buffer 512)} {fs1 : Mvhfs}

theorem Sound.held (h : Sound disk d fs) (hp : planOf fs op = some (ws, fs1)) (k : Nat) {lba : Nat}
    (hh : Held fs lba) :
    apply disk ((ws ++ commitWrites d.sector_count fs1).take k) lba = disk lba := by
  apply apply_of_not_mem
  intro w hw
  exact row_spares_held hp h.slot_le h.directory_slot_le h.slots hh w (List.mem_of_mem_take hw)

theorem Sound.selectors_after (h : Sound disk d fs) (hp : planOf fs op = some (ws, fs1)) (k : Nat) :
    ∀ lba, 2 ≤ lba → lba < 10 →
      SelectorsOk (apply disk ((ws ++ commitWrites d.sector_count fs1).take k) lba) := by
  refine apply_keeps (P := fun lba b => 2 ≤ lba → lba < 10 → SelectorsOk b) h.selectors ?_
  intro w hw h2 h10
  have hs := toNat_xor_one h.slot_le
  rcases mem_row hp (List.mem_of_mem_take hw) with ⟨i, hi, _, j, hj, hl⟩ | ⟨j, hj, rfl⟩ | rfl
  · have := data_lba_range (xor_one_le (h.slots i hi)) i
    omega
  · exact selectorsOk_sectorOf (slotsOk_planOf hp h.slots) hj
  · simp only at h2
    omega

theorem Sound.current_after (h : Sound disk d fs) (hp : planOf fs op = some (ws, fs1)) (k : Nat) :
    candidate (apply disk ((ws ++ commitWrites d.sector_count fs1).take k)) d fs.device_id
      fs.superblock_slot = some fs :=
  candidate_of_agree h.current (h.held hp k (Or.inl rfl))
    fun j hj => h.held hp k (Or.inr (Or.inl ⟨j, hj, rfl⟩))

theorem Sound.other_after (h : Sound disk d fs) (hp : planOf fs op = some (ws, fs1)) {k : Nat}
    (hk : k < (ws ++ commitWrites d.sector_count fs1).length) :
    apply disk ((ws ++ commitWrites d.sector_count fs1).take k) (fs.superblock_slot ^^^ 1).toNat =
      disk (fs.superblock_slot ^^^ 1).toNat := by
  obtain ⟨_, hs, i, hi, f, _, rfl, _⟩ := planOf_some hp
  have hsp := toNat_xor_one h.slot_le
  rw [commitWrites, ← List.append_assoc] at hk ⊢
  rw [List.length_append, List.length_singleton] at hk
  rw [List.take_append_of_le_length (by omega)]
  apply apply_of_not_mem
  intro w hw
  rcases List.mem_append.mp (List.mem_of_mem_take hw) with hw | hw
  · obtain ⟨i, hi, _, j, hj, hl⟩ := hs w hw
    have := data_lba_range (xor_one_le (h.slots i hi)) i
    omega
  · obtain ⟨j, hj, rfl⟩ := List.mem_map.mp hw
    grind [directory_lba_cases]

theorem Sound.part (h : Sound disk d fs) (hp : planOf fs op = some (ws, fs1)) {k : Nat}
    (hk : k < (ws ++ commitWrites d.sector_count fs1).length) :
    Sound (apply disk ((ws ++ commitWrites d.sector_count fs1).take k)) d fs where
  room := h.room
  slot_le := h.slot_le
  current := h.current_after hp k
  other := by
    rw [superOn_congr (h.other_after hp hk)]
    exact h.other
  selectors := h.selectors_after hp k

theorem Sound.all (h : Sound disk d fs) (hp : planOf fs op = some (ws, fs1)) :
    Sound (apply disk (ws ++ commitWrites d.sector_count fs1)) d (committed fs1) := by
  obtain ⟨_, _, i, hi, f, hf, rfl, _⟩ := planOf_some hp
  have hfl : (ws ++ commitWrites d.sector_count (fs.edit f)).take
      (ws ++ commitWrites d.sector_count (fs.edit f)).length =
      ws ++ commitWrites d.sector_count (fs.edit f) := List.take_length
  refine ⟨h.room, xor_one_le h.slot_le, ?_, ?_, ?_⟩
  · rw [apply_append]
    exact @candidate_commit d (fs.edit f) _ h.room h.slot_le h.directory_slot_le h.mounted
  · obtain ⟨s, hs, hfs, _⟩ := candidate_eq_some.mp (h.current_after hp
      (ws ++ commitWrites d.sector_count (fs.edit f)).length)
    rw [hfl] at hs
    have hg : fs.generation = load64 s.bytes 24 := by rw [hfs]; rfl
    refine ⟨s, ?_, ?_⟩
    · show superOn _ d (fs.superblock_slot ^^^ 1 ^^^ 1) = some s
      rw [xor_one_xor_one]
      exact hs
    · rw [← hg]
      show fs.generation < fs.generation + 1 ∨ fs.generation + 1 = 0
      grind
  · have hsl := h.selectors_after hp (ws ++ commitWrites d.sector_count (fs.edit f)).length
    rw [hfl] at hsl
    exact hsl

/-! ## What a mount chooses -/

theorem better_cases (a b : Option Mvhfs) : better a b = a ∨ better a b = b := by
  rcases a with _ | a <;> rcases b with _ | b
  · exact Or.inl rfl
  · exact Or.inr rfl
  · exact Or.inl rfl
  grind [better]

theorem better_newer_left {a b : Mvhfs} (h : b.generation < a.generation) :
    better (some a) (some b) = some a :=
  if_pos (UInt64.le_of_lt h)

theorem better_newer_right {a b : Mvhfs} (h : b.generation < a.generation) :
    better (some b) (some a) = some a :=
  if_neg (UInt64.not_le.mpr h)

theorem mountable_slots {s : UInt32} (h : s ≤ 1) (id : UInt32) :
    mountable disk d id = better (candidate disk d id s) (candidate disk d id (s ^^^ 1)) ∨
      mountable disk d id = better (candidate disk d id (s ^^^ 1)) (candidate disk d id s) := by
  unfold mountable
  rcases xor_one_cases h with ⟨h1, h2⟩ | ⟨h1, h2⟩
  · exact Or.inl (by rw [h2, h1])
  · exact Or.inr (by rw [h2, h1])

theorem mountable_of_none {slot id : UInt32} (h : slot ≤ 1)
    (ho : candidate disk d id (slot ^^^ 1) = none) :
    mountable disk d id = candidate disk d id slot := by
  rcases mountable_slots h id with hm | hm
  · rw [hm, ho, better_none]
  · rw [hm, ho, none_better]

theorem Sound.other_candidate (h : Sound disk d fs) {o : Mvhfs}
    (ho : candidate disk d fs.device_id (fs.superblock_slot ^^^ 1) = some o) :
    o.generation < fs.generation ∨ fs.generation = 0 := by
  obtain ⟨s, hs, hg⟩ := h.other
  obtain ⟨sector', hs', rfl, _⟩ := candidate_eq_some.mp ho
  have he : s = sector' := by grind
  subst he
  exact hg

theorem Sound.mountable_eq (h : Sound disk d fs) (hg : fs.generation ≠ 0) :
    mountable disk d fs.device_id = some fs := by
  rcases ho : candidate disk d fs.device_id (fs.superblock_slot ^^^ 1) with _ | o
  · rw [mountable_of_none h.slot_le ho]
    exact h.current
  · have hlt := (h.other_candidate ho).resolve_right hg
    rcases mountable_slots h.slot_le fs.device_id with hm | hm
    · rw [hm, ho, h.current, better_newer_left hlt]
    · rw [hm, ho, h.current, better_newer_right hlt]

theorem Sound.mountable_some (h : Sound disk d fs) :
    ∃ fs', mountable disk d fs.device_id = some fs' ∧ fs'.device_id = fs.device_id ∧
      Sound disk d fs' := by
  by_cases hg : fs.generation = 0
  · rcases ho : candidate disk d fs.device_id (fs.superblock_slot ^^^ 1) with _ | o
    · refine ⟨fs, ?_, rfl, h⟩
      rw [mountable_of_none h.slot_le ho]
      exact h.current
    · have hc : mountable disk d fs.device_id = some fs ∨
          mountable disk d fs.device_id = some o := by
        rw [← h.current, ← ho]
        rcases mountable_slots h.slot_le fs.device_id with hm | hm
        · rw [hm]
          exact better_cases _ _
        grind [better_cases]
      rcases hc with hm | hm
      · exact ⟨fs, hm, rfl, h⟩
      · -- The other slot is chosen, so the old handle is now the other one.
        obtain ⟨s, hs, hfs, _⟩ := candidate_eq_some.mp h.current
        obtain ⟨s', hs', ho', _⟩ := candidate_eq_some.mp ho
        have hsl : o.superblock_slot = fs.superblock_slot ^^^ 1 := by rw [ho']; rfl
        have hid : o.device_id = fs.device_id := by rw [ho']; rfl
        have hz : load64 s.bytes 24 = 0 := by
          rw [← hg, hfs]
          rfl
        refine ⟨o, hm, hid, h.room, ?_, ?_, ⟨s, ?_, ?_⟩, h.selectors⟩
        · rw [hsl]
          exact xor_one_le h.slot_le
        · rw [hsl, hid]
          exact ho
        · grind [xor_one_xor_one]
        grind
  · exact ⟨fs, h.mountable_eq hg, rfl, h⟩

theorem Sound.all_wrapped (h : Sound disk d fs) (hp : planOf fs op = some (ws, fs1))
    (hg : fs.generation + 1 = 0) :
    Sound (apply disk (ws ++ commitWrites d.sector_count fs1)) d fs := by
  have hn := (h.all hp).current
  obtain ⟨_, _, _, _, f, _, rfl, _⟩ := planOf_some hp
  obtain ⟨s, hs, hfs, _⟩ := candidate_eq_some.mp hn
  have hsl := h.selectors_after hp (ws ++ commitWrites d.sector_count (fs.edit f)).length
  have hc := h.current_after hp (ws ++ commitWrites d.sector_count (fs.edit f)).length
  rw [List.take_length] at hsl hc
  refine ⟨h.room, h.slot_le, hc, ⟨s, hs, Or.inl ?_⟩, hsl⟩
  have hz : load64 s.bytes 24 = 0 := by
    rw [← hg]
    exact (congrArg Mvhfs.generation hfs).symm
  grind

end

end mvh.mvhfs
