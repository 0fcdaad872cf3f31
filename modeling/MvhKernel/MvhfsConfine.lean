-- Untrusted images: the sectors that `mvhfs_write` may change are those of its own file,
-- the directory copy and the superblock that are not mounted.
import MvhKernel.MvhfsRefine
import MvhKernel.MvhfsRuns

open flat_memory write_list mvh.block mvh.crc

namespace mvh.mvhfs

/-! ## The sectors of one file -/

def MayWrite (fs : Mvhfs) (i lba : Nat) : Prop :=
  (10 + 16 * i ≤ lba ∧ lba ≤ 25 + 16 * i) ∨
    (∃ k < 4, lba = directory_lba (fs.directory_slot ^^^ 1) + k) ∨
    lba = (fs.superblock_slot ^^^ 1).toNat

/-- Between two machines only sectors are written that a write to the named file may change. -/
def Confined (fs : Mvhfs) (name : Option Mem) (m m' : Machine) : Prop :=
  ∃ log, m'.written = m.written ++ log ∧
    (∀ id lba, (id, lba) ∉ log → m'.disk id lba = m.disk id lba) ∧
    ∀ e ∈ log, e.1 = fs.device_id ∧
      ∃ text i, name = some text ∧ find_entry fs text = some i ∧ MayWrite fs i e.2

/-- The index of the file that a write goes on with, `none` when the write is turned away. -/
def targetOf (fs : Mvhfs) (name data : Option Mem) (size : UInt32) : Option Nat :=
  name.bind fun text =>
    if size.toNat > MVHFS_FILE_MAX ∨ (data.isNone ∧ size ≠ 0) then none else fileOf fs text

def written (fs : Mvhfs) (i : Nat) (data : Option Mem) (size : UInt32) : Mvhfs :=
  fs.edit (writeEdit (entry_at i) size (crc32 data size.toNat) (slotAt fs.directory i ^^^ 1))

theorem mvhfs_write_eq {m : Machine} {fs : Mvhfs} {d : BlockDevice}
    (h : HasSectors m fs.device_id d) (name dt : Option Mem) (s : UInt32) :
    mvhfs_write fs name dt s m = match targetOf fs name dt s with
      | none => (some (-1, fs), m)
      | some i => perform fs.device_id
          (dataWrites i (slotAt fs.directory i ^^^ 1) (dt.getD cleared) s.toNat ++
            commitWrites d.sector_count (written fs i dt s))
          fs (committed (written fs i dt s)) m := by
  have hp : planOf fs (.write name dt s) = (targetOf fs name dt s).map fun i =>
      (dataWrites i (slotAt fs.directory i ^^^ 1) (dt.getD cleared) s.toNat,
        written fs i dt s) := by
    rcases name with _ | t
    · rfl
    · rw [planOf, targetOf, Option.bind_some]
      split <;> rfl
  have he := exec_eq h (.write name dt s)
  rw [exec, hp] at he
  rw [he]
  cases targetOf fs name dt s <;> rfl

theorem targetOf_some {fs : Mvhfs} {name d : Option Mem} {s : UInt32} {i : Nat}
    (h : targetOf fs name d s = some i) :
    ∃ t, name = some t ∧ find_entry fs t = some i := by
  unfold targetOf at h
  obtain ⟨t, hn, h⟩ := Option.bind_eq_some_iff.mp h
  split at h
  · cases h
  · exact ⟨t, hn, (fileOf_some h).2.2.2⟩

theorem mountable_shape {ds : Nat → Buffer 512} {d : BlockDevice} {id : UInt32} {fs : Mvhfs}
    (h : mountable ds d id = some fs) :
    fs.device_id = id ∧ fs.superblock_slot ≤ 1 := by
  unfold mountable at h
  rcases better_cases (candidate ds d id 0) (candidate ds d id 1) with hb | hb
  · rw [hb] at h
    obtain ⟨s, _, rfl, _⟩ := candidate_eq_some.mp h
    exact ⟨rfl, (by decide : (0 : UInt32) ≤ 1)⟩
  · rw [hb] at h
    obtain ⟨s, _, rfl, _⟩ := candidate_eq_some.mp h
    exact ⟨rfl, (by decide : (1 : UInt32) ≤ 1)⟩

/-! ## The writes of one call -/

section
variable {fs : Mvhfs} {name : Option Mem} {m m' : Machine}

theorem confined_refl : Confined fs name m m :=
  ⟨[], (List.append_nil _).symm, fun _ _ _ => rfl, fun _ h => absurd h List.not_mem_nil⟩

theorem confined_writes {ws : List (Nat × Buffer 512)} {p : List Outcome} {t : Mem} {i : Nat}
    (hm : m' = (m.writes fs.device_id ws).withPlan p) (hn : name = some t)
    (hf : find_entry fs t = some i) (hws : ∀ w ∈ ws, MayWrite fs i w.1) :
    Confined fs name m m' := by
  refine ⟨ws.map fun w => (fs.device_id, w.1), ?_, ?_, ?_⟩
  · rw [hm]
    exact written_writes m _ ws
  · intro id lba hl
    rw [hm, disk_withPlan]
    by_cases hid : id = fs.device_id
    · subst hid
      rw [disk_writes, apply_of_not_mem]
      grind
    · rw [Machine.disk, Machine.disk, media_writes_ne m hid]
  grind

theorem perform_machine (id : UInt32) (ws : List (Nat × Buffer 512)) (fs fs' : Mvhfs) (m : Machine) :
    (perform id ws fs fs' m).2 = (writeAll id ws m).2 := by
  unfold perform
  grind [Io.bind_apply]

theorem row_mayWrite {i : Nat} {s : UInt32} (hs : s ≤ 1) (d : Option Mem) (sz : UInt32)
    (c : UInt64) :
    ∀ w ∈ dataWrites i (s ^^^ 1) (d.getD cleared) sz.toNat ++
        commitWrites c (written fs i d sz), MayWrite fs i w.1 := by
  intro w hw
  rcases List.mem_append.mp hw with hw | hw
  · obtain ⟨k, hk, rfl⟩ := List.mem_map.mp hw
    have hr := data_lba_range (xor_one_le hs) i
    have hk' := List.mem_range.mp hk
    refine Or.inl ?_
    simp only
    omega
  · rcases List.mem_append.mp hw with hw | hw
    · obtain ⟨k, hk, rfl⟩ := List.mem_map.mp hw
      exact Or.inr (Or.inl ⟨k, List.mem_range.mp hk, rfl⟩)
    · rw [List.mem_singleton.mp hw]
      exact Or.inr (Or.inr rfl)

theorem two_le_xor_one {s : UInt32} (h : 1 < s) : 2 ≤ (s ^^^ 1).toNat := by
  by_contra hlt
  have hle : s ^^^ 1 ≤ 1 := by grind
  have hb := xor_one_le hle
  grind [xor_one_xor_one, UInt32.not_le.mpr]

theorem not_mayWrite {i : Nat} {s : UInt32} (hsl : 1 < s) (hs : fs.superblock_slot ≤ 1) :
    ¬ MayWrite fs i (data_lba i (s ^^^ 1)) := by
  have h2 := two_le_xor_one hsl
  have hd := data_lba_eq i (s ^^^ 1)
  have hsp := toNat_xor_one hs
  have hdr := directory_lba_cases (fs.directory_slot ^^^ 1)
  rintro (h | ⟨k, hk, h⟩ | h)
  · omega
  · omega
  · omega

end

theorem dataWrites_cons (i : Nat) (s : UInt32) (ip : Mem) (sz : Nat)
    (vs : List (Nat × Buffer 512)) :
    ∃ ws, dataWrites i s ip sz ++ vs =
      (data_lba i s, dataSector ip sz 0) :: ws := ⟨_, rfl⟩

/-- The writes of `mvhfs_write` stay inside the file just when the write is turned away, or the
selector of the file is 0 or 1, or the block layer turns the first write away. -/
theorem a_write_stays_in_its_file_iff {id : UInt32} {m m' : Machine} {fs0 fs : Mvhfs}
    (hmount : mvhfs_mount fs0 id m = (some (0, fs), m')) (name data : Option Mem) (size : UInt32) :
    (∀ plan, Confined fs name (m'.withPlan plan)
        (mvhfs_write fs name data size (m'.withPlan plan)).2) ↔
      ∀ i d, targetOf fs name data size = some i → block_get m'.table id = some d →
        slotAt fs.directory i > 1 →
          d.writable = 0 ∨ d.sector_count.toNat ≤ data_lba i (slotAt fs.directory i ^^^ 1) := by
  obtain ⟨d, hd, _, hfound, rfl⟩ := mvhfs_mount_some hmount
  obtain ⟨rfl, hslot⟩ := mountable_shape hfound
  have hwrite := fun plan => mvhfs_write_eq (hd.withPlan plan) name data size
  rcases ht : targetOf fs name data size with _ | i
  · rw [ht] at hwrite
    refine ⟨fun _ _ _ h => (by cases h), fun _ plan => ?_⟩
    rw [hwrite]
    exact confined_refl
  · obtain ⟨text, hname, hfind⟩ := targetOf_some ht
    rw [ht] at hwrite
    have hmachine := fun plan => congrArg Prod.snd (hwrite plan)
    simp only [perform_machine] at hmachine
    obtain ⟨ws, hrow⟩ := dataWrites_cons i (slotAt fs.directory i ^^^ 1) (data.getD cleared)
      size.toNat (commitWrites d.sector_count (written fs i data size))
    constructor
    · intro hconfined j d' hj hd' hbad
      cases hj
      obtain rfl : d' = d := Option.some.inj (hd'.symm.trans hd.get)
      by_contra hopen
      rw [not_or, Nat.not_le] at hopen
      obtain ⟨log, hlog, _, hgood⟩ := hconfined []
      have hfirst := writeAll_first (w := (data_lba i (slotAt fs.directory i ^^^ 1),
        dataSector (data.getD cleared) size.toNat 0)) (hd.withPlan []) hopen.1 rfl hopen.2 ws
      rw [← hrow, ← hmachine, hlog, List.drop_left] at hfirst
      obtain ⟨_, text', i', hname', hfind', hmay⟩ := hgood _ hfirst
      rw [hname] at hname'
      cases hname'
      rw [hfind] at hfind'
      cases hfind'
      exact not_mayWrite hbad hslot hmay
    · intro hcond plan
      by_cases hgood : slotAt fs.directory i ≤ 1
      · obtain ⟨k, plan', hpart⟩ := writeAll_part (hd.withPlan plan) (dataWrites i
          (slotAt fs.directory i ^^^ 1) (data.getD cleared) size.toNat ++
            commitWrites d.sector_count (written fs i data size))
        rw [← hmachine] at hpart
        exact confined_writes hpart hname hfind fun w hw =>
          row_mayWrite hgood data size _ w (List.mem_of_mem_take hw)
      · rw [hmachine, hrow, writeAll_refused (hd.withPlan plan)
          (hcond i d rfl hd.get (UInt32.not_le.mp hgood))]
        exact confined_refl

/-! ## An image with a bad selector -/

def nameB : Mem := fun i => if i = 0 then 0x62 else 0

/-- File "a" at index 0 with the selector 2, and file "b" at index 1 with the selector 1. -/
def craftedDirectory : Buffer 2048 :=
  Buffer.ofMem 2048 (store32 (createEdit nameB (entry_at 1)
    (store32 (createEdit nameA (entry_at 0) cleared) (entry_at 0 + 44) 2)) (entry_at 1 + 44) 1)

def crafted : Mvhfs :=
  { device_id := 0, superblock_slot := 1, directory_slot := 1, generation := 0, mounted := 1
    directory := craftedDirectory }

theorem crafted_image : ∃ m, HasSectors m 0 smallDevice ∧ m.plan = [] ∧
    mvhfs_mount blankHandle 0 m = (some (0, committed crafted), m) ∧
    ∀ lba, 10 ≤ lba → m.disk 0 lba = Buffer.ofMem 512 cleared := by
  have hds : ((smallMachine.writes 0 (commitWrites 522 crafted)).withPlan []).disk 0 =
      apply (fun _ => Buffer.ofMem 512 cleared) (commitWrites 522 crafted) := by
    rw [disk_withPlan, disk_writes]
    congr 1
  have hd : HasSectors ((smallMachine.writes 0 (commitWrites 522 crafted)).withPlan []) 0
      smallDevice := ⟨by rw [table_withPlan, table_writes]; rfl, rfl⟩
  -- The image has its directory in sectors 2 to 5 and its superblock in sector 0.
  have hb : ∀ lba, lba = 1 ∨ 10 ≤ lba → apply (fun _ => Buffer.ofMem 512 cleared)
      (commitWrites 522 crafted) lba = Buffer.ofMem 512 cleared := by
    intro lba hl
    apply apply_of_not_mem
    intro w hw
    rcases List.mem_append.mp hw with hw | hw
    · obtain ⟨k, hk, rfl⟩ := List.mem_map.mp hw
      have hk' := List.mem_range.mp hk
      have hlw : directory_lba (crafted.directory_slot ^^^ 1) = 2 := rfl
      simp only
      omega
    · rw [List.mem_singleton.mp hw]
      have hlw : (crafted.superblock_slot ^^^ 1).toNat = 0 := rfl
      simp only
      omega
  have ho : superOn (apply (fun _ => Buffer.ofMem 512 cleared) (commitWrites 522 crafted))
      smallDevice 1 = none := by
    unfold superOn
    rw [hb (UInt32.toNat 1) (Or.inl rfl)]
    decide +kernel
  have hf := candidate_commit (fun _ => Buffer.ofMem 512 cleared) (d := smallDevice)
    (by decide : MVHFS_MIN_SECTORS ≤ smallDevice.sector_count)
    (by decide : crafted.superblock_slot ≤ 1) (by decide : crafted.directory_slot ≤ 1) rfl
  obtain ⟨failed, _, hm⟩ := mvhfs_mount_eq hd (by decide) blankHandle
  refine ⟨_, hd, rfl, ?_, ?_⟩
  · have hbt : mountable (apply (fun _ => Buffer.ofMem 512 cleared) (commitWrites 522 crafted))
        smallDevice 0 = some (committed crafted) := by
      rw [mountable_of_none (by decide : (0 : UInt32) ≤ 1) (by
        rw [candidate, show (0 : UInt32) ^^^ 1 = 1 from rfl, ho]
        rfl)]
      exact hf
    rw [hds, hbt] at hm
    exact hm
  · intro lba hl
    rw [hds]
    exact hb lba (Or.inr hl)

theorem crafted_target_a :
    targetOf (committed crafted) (some nameA) (some fun _ => 1) 1 = some 0 := by
  decide +kernel

theorem crafted_target_b :
    targetOf (committed crafted) (some nameB) (some fun _ => 1) 1 = some 1 := by
  decide +kernel

theorem crafted_slots : slotAt (committed crafted).directory 0 = 2 ∧
    slotAt (committed crafted).directory 1 = 1 := by
  decide +kernel

/-- A write of the file "b", whose selector is good, stays inside its sectors. -/
theorem a_write_of_b_stays_in_b : ∃ m, mvhfs_mount blankHandle 0 m = (some (0, committed crafted), m) ∧
    ∀ plan, Confined (committed crafted) (some nameB) (m.withPlan plan)
      (mvhfs_write (committed crafted) (some nameB) (some fun _ => 1) 1 (m.withPlan plan)).2 := by
  obtain ⟨m, hdevice, _, hmount, _⟩ := crafted_image
  refine ⟨m, hmount, (a_write_stays_in_its_file_iff hmount _ _ _).mpr ?_⟩
  intro i d hi _ hbad
  rw [crafted_target_b] at hi
  cases hi
  rw [crafted_slots.2] at hbad
  exact absurd hbad (by decide)

theorem crafted_names : find_entry (committed crafted) nameA = some 0 ∧
    find_entry (committed crafted) nameB = some 1 := by
  decide +kernel

/-- A write of the file "a" changes sector 34, which holds the data of the file "b". -/
theorem a_write_of_a_changes_b : ∃ m fs fs' m',
    mvhfs_mount blankHandle 0 m = (some (0, fs), m) ∧
      mvhfs_write fs (some nameA) (some fun _ => 1) 1 m = (some (0, fs'), m') ∧
      find_entry fs nameA = some 0 ∧ find_entry fs nameB = some 1 ∧
      data_lba 1 (slotAt fs.directory 1) = 34 ∧ m'.disk 0 34 ≠ m.disk 0 34 := by
  obtain ⟨m, hdevice, hplan, hmount, hblank⟩ := crafted_image
  obtain ⟨ha, hb⟩ := crafted_slots
  have hid : (committed crafted).device_id = 0 := rfl
  rw [← hid] at hdevice
  have hwrite := mvhfs_write_eq hdevice (some nameA) (some fun _ => 1) 1
  rw [crafted_target_a] at hwrite
  simp only at hwrite
  rw [ha] at hwrite
  have hslot : (written (committed crafted) 0 (some fun _ => 1) 1).superblock_slot = 0 := rfl
  generalize written (committed crafted) 0 (some fun _ => 1) 1 = fs1 at hwrite hslot
  have hdata : data_lba 0 (2 ^^^ 1) = 34 := rfl
  have hlow : ∀ w ∈ dataWrites 0 (2 ^^^ 1) ((some fun _ => 1).getD cleared) (UInt32.toNat 1) ++
      commitWrites smallDevice.sector_count fs1, w.1 < smallDevice.sector_count.toNat := by
    have hcount : smallDevice.sector_count.toNat = 522 := rfl
    intro w hw
    rcases List.mem_append.mp hw with hw | hw
    · obtain ⟨k, hk, rfl⟩ := List.mem_map.mp hw
      have hk' := List.mem_range.mp hk
      simp only
      omega
    · rcases List.mem_append.mp hw with hw | hw
      · obtain ⟨k, hk, rfl⟩ := List.mem_map.mp hw
        have hk' := List.mem_range.mp hk
        have := directory_lba_cases (fs1.directory_slot ^^^ 1)
        simp only
        omega
      · rw [List.mem_singleton.mp hw, hslot, hcount]
        exact (by decide : (0 ^^^ 1 : UInt32).toNat < 522)
  rw [perform_eq hdevice (by decide) _ hlow, hplan, ending_nil] at hwrite
  refine ⟨m, _, _, _, hmount, hwrite, crafted_names.1, crafted_names.2, by rw [hb]; rfl, ?_⟩
  have hafter := data_after fs1 (by rw [hslot]; decide) (m.disk 0) 0 (2 ^^^ 1)
    ((some fun _ => 1).getD cleared) (UInt32.toNat 1) smallDevice.sector_count (by decide : 0 < 8)
  rw [hid, disk_play, hplan, played_nil, List.take_length, hblank 34 (by decide)]
  rw [hdata] at hafter
  rw [hafter]
  intro heq
  have hbyte := congrArg (fun b => Buffer.bytes b 0) heq
  simp [dataSector, Buffer.bytes_ofMem, cleared] at hbyte

end mvh.mvhfs
