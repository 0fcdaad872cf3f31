-- The checksums of the filesystem at work: which superblock a mount takes, and that a
-- short burst of wrong bytes is found in the data of a file, in a directory and in a GPT.
import MvhKernel.CrcLaws
import MvhKernel.GptProbe
import MvhKernel.MvhfsRecovery

open flat_memory mvh.block mvh.crc

namespace mvh.mvhfs

/-! ## The choice of a mount -/

/-- The superblock of a slot passes its check, and the directory copy that it names has the
checksum that it records. -/
structure Intact (disk : Nat → Buffer 512) (device : BlockDevice) (slot : UInt32) : Prop where
  superblock : (validate_superblock (disk slot.toNat) device).1 = 0
  directory : crc32 (some (directoryOn disk (load32 (disk slot.toNat).bytes 32)).bytes)
    MVHFS_DIRECTORY_BYTES = load32 (disk slot.toNat).bytes 40

def generationOn (disk : Nat → Buffer 512) (slot : UInt32) : UInt64 := load64 (disk slot.toNat).bytes 24

/-- The slot that is to be mounted: no intact slot has a higher generation, and none before it
has the same. -/
structure Newest (disk : Nat → Buffer 512) (device : BlockDevice) (slot : UInt32) : Prop where
  le : slot ≤ 1
  intact : Intact disk device slot
  highest : ∀ other ≤ 1, Intact disk device other → generationOn disk other ≤ generationOn disk slot
  first : ∀ other ≤ 1, Intact disk device other → generationOn disk other = generationOn disk slot → slot ≤ other

theorem handleOf_checked {ds : Nat → Buffer 512} {d : BlockDevice} {sl : UInt32} {s : Buffer 512}
    (h : superOn ds d sl = some s) (id : UInt32) :
    handleOf ds id sl s = handleOf ds id sl (ds sl.toNat) := by
  have hg : load64 s.bytes 24 = load64 (ds sl.toNat).bytes 24 := by
    obtain ⟨_, rfl⟩ := superOn_some.mp h
    simp [Buffer.load64_ofMem, load64_store32_ne]
  grind [superOn_field, handleOf]

theorem candidate_iff {ds : Nat → Buffer 512} {d : BlockDevice} {id sl : UInt32} {fs : Mvhfs} :
    candidate ds d id sl = some fs ↔
      Intact ds d sl ∧ fs = handleOf ds id sl (ds sl.toNat) := by
  rw [candidate_eq_some]
  constructor
  · rintro ⟨s, hs, rfl, hc⟩
    have hh := handleOf_checked hs id
    rw [hh, superOn_field hs (by omega)] at hc
    exact ⟨⟨(superOn_some.mp hs).1, hc⟩, hh⟩
  · rintro ⟨hi, rfl⟩
    have hs := superOn_some.mpr ⟨hi.superblock, rfl⟩
    refine ⟨_, hs, (handleOf_checked hs id).symm, ?_⟩
    rw [superOn_field hs (by omega)]
    exact hi.directory

theorem candidate_none_iff {ds : Nat → Buffer 512} {d : BlockDevice} {id slot : UInt32} :
    candidate ds d id slot = none ↔ ¬ Intact ds d slot := by
  rw [Option.eq_none_iff_forall_ne_some]
  constructor
  · intro h hi
    exact h _ (candidate_iff.mpr ⟨hi, rfl⟩)
  · intro h fs hfs
    exact h (candidate_iff.mp hfs).1

theorem forall_slot {P : UInt32 → Prop} (h0 : P 0) (h1 : P 1) : ∀ slot ≤ 1, P slot := by
  intro slot hs
  grind

theorem mountable_newest {ds : Nat → Buffer 512} {d : BlockDevice} {id : UInt32} {fs : Mvhfs}
    (h : mountable ds d id = some fs) :
    ∃ sl, Newest ds d sl ∧ fs = handleOf ds id sl (ds sl.toNat) := by
  unfold mountable at h
  rcases h0 : candidate ds d id 0 with _ | first <;> rcases h1 : candidate ds d id 1 with _ | s
  · rw [h0, h1] at h
    cases h
  · rw [h0, h1] at h
    obtain rfl := Option.some.inj h
    obtain ⟨hi, hfs⟩ := candidate_iff.mp h1
    have hn := candidate_none_iff.mp h0
    refine ⟨1, ⟨by decide, hi, ?_, ?_⟩, hfs⟩
    · grind
    grind
  · rw [h0, h1] at h
    obtain rfl := Option.some.inj h
    obtain ⟨hi, hfs⟩ := candidate_iff.mp h0
    have hn := candidate_none_iff.mp h1
    refine ⟨0, ⟨by decide, hi, ?_, ?_⟩, hfs⟩
    · grind
    simp
  · rw [h0, h1] at h
    obtain ⟨hi0, hf⟩ := candidate_iff.mp h0
    obtain ⟨hi1, hs⟩ := candidate_iff.mp h1
    have hg0 : first.generation = generationOn ds 0 := by rw [hf]; rfl
    have hg1 : s.generation = generationOn ds 1 := by rw [hs]; rfl
    unfold better at h
    simp only [hg0, hg1] at h
    by_cases hge : generationOn ds 0 ≥ generationOn ds 1
    · rw [if_pos hge] at h
      obtain rfl := Option.some.inj h
      refine ⟨0, ⟨by decide, hi0, ?_, ?_⟩, hf⟩
      · grind
      simp
    · rw [if_neg hge] at h
      obtain rfl := Option.some.inj h
      have hlt : generationOn ds 0 < generationOn ds 1 := UInt64.not_le.mp hge
      refine ⟨1, ⟨by decide, hi1, ?_, ?_⟩, hs⟩
      · grind
      grind

theorem mountable_none_iff {ds : Nat → Buffer 512} {d : BlockDevice} {id : UInt32} :
    mountable ds d id = none ↔ ¬ (Intact ds d 0 ∨ Intact ds d 1) := by
  have hn (slot : UInt32) : candidate ds d id slot = none ↔ ¬ Intact ds d slot :=
    candidate_none_iff
  rw [not_or, ← hn, ← hn]
  unfold mountable
  rcases candidate ds d id 0 with _ | first <;> rcases candidate ds d id 1 with _ | s
  · simp [better]
  · simp [better]
  · simp [better]
  grind [better]

/-- On a device with 512-byte sectors that is large enough, a mount returns 0 for just the disks
with an intact slot, and then it gives the handle of the newest one. Else it returns -1 and the
handle is not mounted. -/
theorem a_mount_takes_the_newest_slot {m : Machine} {id : UInt32} {d : BlockDevice}
    (h : HasSectors m id d) (hc : MVHFS_MIN_SECTORS ≤ d.sector_count) (fs : Mvhfs) :
    ∃ status after, mvhfs_mount fs id m = (some (status, after), m) ∧
      (status = 0 ↔ Intact (m.disk id) d 0 ∨ Intact (m.disk id) d 1) ∧
      (status = 0 → ∃ slot, Newest (m.disk id) d slot ∧
        after = { device_id := id
                  superblock_slot := slot
                  directory_slot := load32 (m.disk id slot.toNat).bytes 32
                  generation := generationOn (m.disk id) slot
                  mounted := 1
                  directory := directoryOn (m.disk id) (load32 (m.disk id slot.toNat).bytes 32) }) ∧
      (status ≠ 0 → status = -1 ∧ after.mounted = 0) := by
  obtain ⟨failed, hfailed, hmount⟩ := mvhfs_mount_eq h hc fs
  rcases hfound : mountable (m.disk id) d id with _ | found
  · rw [hfound] at hmount
    refine ⟨-1, failed, hmount, ⟨nofun, ?_⟩, nofun, fun _ => ⟨rfl, hfailed⟩⟩
    intro hintact
    exact absurd hintact (mountable_none_iff.mp hfound)
  · rw [hfound] at hmount
    refine ⟨0, found, hmount, ⟨fun _ => ?_, fun _ => rfl⟩, fun _ => mountable_newest hfound,
      fun hne => absurd rfl hne⟩
    by_contra hnone
    rw [mountable_none_iff.mpr hnone] at hfound
    cases hfound

theorem the_formatted_disk_is_mounted :
    ∃ m0 after slot, mvhfs_format 0 smallMachine = (some 0, m0) ∧
      mvhfs_mount blankHandle 0 m0 = (some (0, after), m0) ∧ Newest (m0.disk 0) smallDevice slot ∧
      after.superblock_slot = slot := by
  obtain ⟨m0, hformat, hdevice, hsound⟩ := small_disk
  obtain ⟨status, after, hmount, hiff, hnewest, _⟩ :=
    a_mount_takes_the_newest_slot hdevice (by decide) blankHandle
  have hintact : Intact (m0.disk 0) smallDevice 0 ∨ Intact (m0.disk 0) smallDevice 1 := by
    by_contra hnone
    have hfound : mountable (m0.disk 0) smallDevice 0 = some (formatted 0) :=
      hsound.mountable_eq (by simp [formatted])
    rw [mountable_none_iff.mpr hnone] at hfound
    cases hfound
  obtain rfl := hiff.mpr hintact
  obtain ⟨slot, hslot, rfl⟩ := hnewest rfl
  exact ⟨m0, _, slot, hformat, hmount, hslot, rfl⟩

/-! ## Bursts -/

/-- The bytes on the disk that a read of the file at index `i` takes its data from. -/
def storedData (m : Machine) (fs : Mvhfs) (i : Nat) : Mem :=
  dataFrom (m.disk fs.device_id) (data_lba i (slotAt fs.directory i))

theorem hasSectors_of_table {m m' : Machine} {id : UInt32} {d : BlockDevice} (h : HasSectors m id d)
    (ht : m'.table = m.table) : HasSectors m' id d :=
  ⟨by rw [ht]; exact h.get, h.size⟩

theorem readOn_other {d : Nat → Buffer 512} (d' : Nat → Buffer 512) {fs : Mvhfs} {t : Mem} {i : Nat}
    (hf : find_entry fs t = some i) {buffer : Bool} {c : UInt32}
    (hg : (readOn d fs (some t) buffer c true).status = 0) :
    let lba := data_lba i (slotAt fs.directory i)
    let s := sizeAt fs.directory i
    crc32 (some (dataFrom d lba)) s.toNat = crcAt fs.directory i ∧
      readOn d' fs (some t) buffer c true = readData d' lba s (crcAt fs.directory i) := by
  intro lba s
  unfold readOn fileOf at hg ⊢
  simp only [Bool.true_eq_false, if_false] at hg ⊢
  by_cases hgr : fs.mounted = 0 ∨ valid_name (some t) = false
  · grind
  · rw [if_neg hgr, hf] at hg
    rw [if_neg hgr, hf]
    simp only [readEntry] at hg ⊢
    by_cases hs : (sizeAt fs.directory i).toNat > MVHFS_FILE_MAX ∨ c < sizeAt fs.directory i ∨
        (buffer = false ∧ sizeAt fs.directory i ≠ 0)
    · grind
    · rw [if_neg hs] at hg
      rw [if_neg hs]
      by_cases hsl : slotAt fs.directory i > 1
      · grind
      · rw [if_neg hsl] at hg
        rw [if_neg hsl]
        refine ⟨?_, rfl⟩
        by_contra hne
        have hb : (readData d lba s (crcAt fs.directory i)).status = -3 := if_neg hne
        grind

theorem a_burst_in_a_file_is_found {m m' : Machine} {fs : Mvhfs} {d : BlockDevice}
    (h : HasSectors m fs.device_id d) (hc : MVHFS_MIN_SECTORS ≤ d.sector_count)
    (ht : m'.table = m.table) {t : Mem} {i : Nat} (hf : find_entry fs t = some i)
    {buffer : Bool} {c : UInt32} {r : ReadResult}
    (hr : mvhfs_read fs (some t) buffer c true m = (some r, m))
    (hg : r.status = 0)
    (hb : Burst (storedData m fs i) (storedData m' fs i) (sizeAt fs.directory i).toNat) :
    ∃ r', mvhfs_read fs (some t) buffer c true m' = (some r', m') ∧
      r'.status = -3 := by
  have hd := hasSectors_of_table h ht
  rw [mvhfs_read_eq h hc, Prod.mk.injEq, Option.some.injEq] at hr
  obtain ⟨hcr, ho⟩ := readOn_other (m'.disk fs.device_id) hf (hr.1 ▸ hg)
  refine ⟨_, mvhfs_read_eq hd hc _ _ _ _, ?_⟩
  rw [ho]
  refine if_neg fun hs => ?_
  exact hb.crc32_ne (hcr.trans hs.symm)

theorem a_burst_in_a_directory_is_found {m m' : Machine} {id : UInt32} {d : BlockDevice}
    (h : HasSectors m id d) (hc : MVHFS_MIN_SECTORS ≤ d.sector_count) (ht : m'.table = m.table)
    {s crc : UInt32} {b dr : Buffer 2048}
    (hr : read_directory id s b crc m = (some (0, dr), m))
    (hb : Burst (directoryOn (m.disk id) s).bytes (directoryOn (m'.disk id) s).bytes
      MVHFS_DIRECTORY_BYTES) :
    ∃ dr', read_directory id s b crc m' = (some (-1, dr'), m') := by
  have hd := hasSectors_of_table h ht
  have hm : 522 ≤ d.sector_count.toNat := hc
  rw [read_directory_eq h (by omega), Prod.mk.injEq, Option.some.injEq, Prod.mk.injEq] at hr
  have hcr : directoryCrc (directoryOn (m.disk id) s) = crc := by grind
  have hne : directoryCrc (directoryOn (m'.disk id) s) ≠ crc := fun hs =>
    hb.crc32_ne (hcr.trans hs.symm)
  refine ⟨directoryOn (m'.disk id) s, ?_⟩
  grind [read_directory_eq]

theorem a_burst_in_a_gpt_is_found {m m' : Machine} {id : UInt32} {d : BlockDevice} (h : HasSectors m id d)
    (ht : m'.table = m.table) {hd : Mem} {i after : PartitionInfo}
    (hp : gpt_probe id d hd i m = (some (0, after), m))
    (hb : Burst (shift (m.media id) ((gptHeader hd).entry_lba.toNat * 512))
      (shift (m'.media id) ((gptHeader hd).entry_lba.toNat * 512)) (gptHeader hd).entryBytes) :
    ∃ a', gpt_probe id d hd i m' = (some (-2, a'), m') := by
  have hdv := hasSectors_of_table h ht
  obtain ⟨r, f, hr, hc⟩ := gpt_probe_spec h hd i
  obtain ⟨r', f', hr', hc'⟩ := gpt_probe_spec hdv hd i
  rw [hp, Prod.mk.injEq, Option.some.injEq, Prod.mk.injEq] at hr
  have hv : GptValid (m.media id) hd d.sector_count := by grind
  rcases hc' with ⟨_, hv', _⟩ | ⟨rfl, _⟩
  · exact absurd (hv.entries.crc.trans hv'.entries.crc.symm) hb.crc32_ne
  · exact ⟨f', hr'⟩

/-- Two byte strings of one length that differ, but only inside four bytes in a row, have different
checksums. So a read of a file that succeeded returns -3 after such damage to its data, and a
directory or a GPT that was accepted is turned away after such damage to it. -/
theorem short_bursts_are_found :
    (∀ (a b : Mem) (size : Nat), Burst a b size → crc32 (some a) size ≠ crc32 (some b) size) ∧
    (∀ (m m' : Machine) (fs : Mvhfs) (d : BlockDevice), HasSectors m fs.device_id d →
      MVHFS_MIN_SECTORS ≤ d.sector_count → m'.table = m.table →
      ∀ (text : Mem) (i : Nat), find_entry fs text = some i →
      ∀ (buffer : Bool) (capacity : UInt32) (result : ReadResult),
      mvhfs_read fs (some text) buffer capacity true m = (some result, m) → result.status = 0 →
      Burst (storedData m fs i) (storedData m' fs i) (sizeAt fs.directory i).toNat →
      ∃ result', mvhfs_read fs (some text) buffer capacity true m' = (some result', m') ∧
        result'.status = -3) ∧
    (∀ (m m' : Machine) (id : UInt32) (d : BlockDevice), HasSectors m id d →
      MVHFS_MIN_SECTORS ≤ d.sector_count → m'.table = m.table →
      ∀ (slot crc : UInt32) (before directory : Buffer 2048),
      read_directory id slot before crc m = (some (0, directory), m) →
      Burst (directoryOn (m.disk id) slot).bytes (directoryOn (m'.disk id) slot).bytes MVHFS_DIRECTORY_BYTES →
      ∃ directory', read_directory id slot before crc m' = (some (-1, directory'), m')) ∧
    (∀ (m m' : Machine) (id : UInt32) (d : BlockDevice), HasSectors m id d → m'.table = m.table →
      ∀ (header : Mem) (info after : PartitionInfo),
      gpt_probe id d header info m = (some (0, after), m) →
      Burst (shift (m.media id) ((gptHeader header).entry_lba.toNat * 512))
        (shift (m'.media id) ((gptHeader header).entry_lba.toNat * 512)) (gptHeader header).entryBytes →
      ∃ after', gpt_probe id d header info m' = (some (-2, after'), m')) := by
  refine ⟨fun a b size hburst => hburst.crc32_ne, ?_, ?_, ?_⟩
  · intro m m' fs d h hc htable text i hfind buffer capacity result hread hgood hburst
    exact a_burst_in_a_file_is_found h hc htable hfind hread hgood hburst
  · intro m m' id d h hc htable slot crc before directory hread hburst
    exact a_burst_in_a_directory_is_found h hc htable hread hburst
  · intro m m' id d h htable header info after hprobe hburst
    exact a_burst_in_a_gpt_is_found h htable hprobe hburst

def oneByte : Mvhfs :=
  (formatted 0).edit fun directory =>
    store32 (store32 (createEdit nameA (entry_at 0) directory) (entry_at 0 + 36) 1) (entry_at 0 + 40) 0xD202EF8D

def wrongByte : Machine := { smallMachine with media := fun _ => setByte cleared (10 * 512) 1 }

/-- On the blank disk the file is read, and with the wrong byte the read returns -3. -/
theorem a_wrong_byte_is_found :
    (readOn (smallMachine.disk 0) oneByte (some nameA) true 1 true).status = 0 ∧
      ∃ result, mvhfs_read oneByte (some nameA) true 1 true wrongByte = (some result, wrongByte) ∧
        result.status = -3 := by
  have hdevice : HasSectors smallMachine oneByte.device_id smallDevice := ⟨rfl, rfl⟩
  have hfind : find_entry oneByte nameA = some 0 := by decide +kernel
  have hgood : (readOn (smallMachine.disk 0) oneByte (some nameA) true 1 true).status = 0 := by
    decide +kernel
  have hsize : (sizeAt oneByte.directory 0).toNat = 1 := by decide +kernel
  have hburst : Burst (storedData smallMachine oneByte 0) (storedData wrongByte oneByte 0)
      (sizeAt oneByte.directory 0).toNat := by
    rw [hsize]
    exact ⟨⟨0, by decide, by decide +kernel⟩, 0, fun i hi _ => ⟨Nat.zero_le i, by omega⟩⟩
  refine ⟨hgood, ?_⟩
  exact short_bursts_are_found.2.1 smallMachine wrongByte oneByte smallDevice hdevice (by decide) rfl nameA 0
    hfind true 1 _ (mvhfs_read_eq hdevice (by decide) _ _ _ _) hgood hburst

end mvh.mvhfs
