-- Recovery: when the sectors of the last change are damaged so that the checks see it, a
-- mount gives back the files from before that change.
import MvhKernel.MvhfsRuns

open flat_memory write_list mvh.block mvh.crc

namespace mvh.mvhfs

/-! ## A change that succeeds -/

theorem exec_done {m m' : Machine} {fs fs' : Mvhfs} {d : BlockDevice} {op : Op}
    (h : HasSectors m fs.device_id d) (hw : d.writable ≠ 0) (hs : Sound (m.disk fs.device_id) d fs)
    (hop : exec fs op m = (some (0, fs'), m')) :
    ∃ ws fs1, planOf fs op = some (ws, fs1) ∧ fs' = committed fs1 ∧ m'.table = m.table ∧
      m'.disk fs.device_id = apply (m.disk fs.device_id) (ws ++ commitWrites d.sector_count fs1) := by
  have hm : 522 ≤ d.sector_count.toNat := hs.room
  have he := exec_eq h op
  rcases hp : planOf fs op with _ | ⟨ws, fs1⟩
  · rw [hp, hop] at he
    cases he
  · rw [hp] at he
    simp only at he
    rw [perform_eq h hw _ fun v hv =>
      Nat.lt_of_lt_of_le (row_in_area hp hs.slot_le hs.slots v hv) hm, hop] at he
    obtain ⟨hr, rfl⟩ := Prod.mk.inj he
    cases hen : ending m.plan (ws ++ commitWrites d.sector_count fs1).length
    · rw [hen] at hr
      cases hr
      refine ⟨ws, fs1, rfl, rfl, table_play _ _ _, ?_⟩
      rw [disk_play, (ending_done_iff _ _).mp hen, List.take_length]
    · rw [hen] at hr
      cases hr
    · rw [hen] at hr
      cases hr

/-! ## Damage -/

/-- The superblock and the directory copy of a handle are damaged on the disk, and nothing else.
-/
def Damaged (id : UInt32) (d : BlockDevice) (fs : Mvhfs) (m m' : Machine) : Prop :=
  m'.table = m.table ∧
  (∀ lba, lba ≠ fs.superblock_slot.toNat → (∀ k < 4, lba ≠ directory_lba fs.directory_slot + k) →
    m'.disk id lba = m.disk id lba) ∧
  ((validate_superblock (m'.disk id fs.superblock_slot.toNat) d).1 ≠ 0 ∨
    (m'.disk id fs.superblock_slot.toNat = m.disk id fs.superblock_slot.toNat ∧
      crc32 (some (directoryOn (m'.disk id) fs.directory_slot).bytes) MVHFS_DIRECTORY_BYTES ≠
        load32 (m.disk id fs.superblock_slot.toNat).bytes 40))

theorem candidate_damaged {id : UInt32} {d : BlockDevice} {fs : Mvhfs} {m m' : Machine}
    (hc : candidate (m.disk id) d id fs.superblock_slot = some fs) (h : Damaged id d fs m m') :
    candidate (m'.disk id) d id fs.superblock_slot = none := by
  obtain ⟨s, hs, hfs, _⟩ := candidate_eq_some.mp hc
  rcases h.2.2 with hb | ⟨hsm, hcr⟩
  · grind [candidate, superOn]
  · have hsl : fs.directory_slot = load32 s.bytes 32 := by
      rw [hfs]
      rfl
    rw [← superOn_field hs (by omega), hsl] at hcr
    rw [candidate, superOn_congr hsm, hs, Option.bind_some]
    exact if_neg hcr

theorem mountable_damaged {fs fs' : Mvhfs} {d : BlockDevice} {op : Op} {m m' m2 : Machine}
    (h : HasSectors m fs.device_id d) (hw : d.writable ≠ 0) (hs : Sound (m.disk fs.device_id) d fs)
    (hop : exec fs op m = (some (0, fs'), m')) (hd : Damaged fs.device_id d fs' m' m2) :
    m2.table = m.table ∧ mountable (m2.disk fs.device_id) d fs.device_id = some fs ∧
      ∀ lba, Live fs lba → m2.disk fs.device_id lba = m.disk fs.device_id lba := by
  obtain ⟨ws, fs1, hp, rfl, ht, hds⟩ := exec_done h hw hs hop
  obtain ⟨_, _, i, hi, f, _, rfl, _⟩ := planOf_some hp
  obtain ⟨ht2, hsm, _⟩ := id hd
  have hsp := toNat_xor_one hs.slot_le
  have hdr := directory_lba_xor hs.directory_slot_le
  have hsl : (committed (fs.edit f)).superblock_slot = fs.superblock_slot ^^^ 1 := rfl
  have hdl : (committed (fs.edit f)).directory_slot = fs.directory_slot ^^^ 1 := rfl
  rw [hsl, hdl] at hsm
  have hh : ∀ lba, Held fs lba → m'.disk fs.device_id lba = m.disk fs.device_id lba := by
    intro lba hl
    have := hs.held hp (ws ++ commitWrites d.sector_count (fs.edit f)).length hl
    rw [List.take_length] at this
    rw [hds]
    omega
  have hkp : ∀ lba, Held fs lba → m2.disk fs.device_id lba = m.disk fs.device_id lba := by
    intro lba hl
    rw [← hh lba hl]
    apply hsm
    · rcases hl with rfl | ⟨k, hk, rfl⟩ | ⟨j, hj, _, _, hse, k, _, rfl⟩
      · omega
      · omega
      · grind [data_lba_range]
    · intro k' hk'
      rcases hl with rfl | ⟨k, hk, rfl⟩ | ⟨j, hj, _, _, hse, k, _, rfl⟩
      · omega
      · omega
      · grind [data_lba_range]
  refine ⟨ht2.trans ht, ?_, fun lba hl => hkp lba (Or.inr (Or.inr hl))⟩
  have hnw := (hs.all hp).current
  rw [← hds] at hnw
  have hn := candidate_damaged hnw hd
  rw [hsl] at hn
  rw [mountable_of_none hs.slot_le hn]
  exact candidate_of_agree hs.current (hkp _ (Or.inl rfl))
    fun k hk => hkp _ (Or.inr (Or.inl ⟨k, hk, rfl⟩))

/-- After any run and one more change that succeeds, damage to the sectors of that change takes
the files back to what they were before it. -/
theorem damage_takes_one_change_back {id : UInt32} {m m0 : Machine} {d : BlockDevice}
    (hformat : mvhfs_format id m = (some 0, m0)) (hd : block_get m0.table id = some d)
    (memory : Mvhfs) (hmemory : memory.mounted = 0) (events : List Event) {w : World}
    (hrun : (World.run id ⟨memory, m0⟩ events).2 = w) (op : Op) (plan : List Outcome) {fs' : Mvhfs}
    {m' m2 : Machine} (hop : exec w.fs op (w.machine.withPlan plan) = (some (0, fs'), m'))
    (hdamage : Damaged id d fs' m' m2) (fresh : Mvhfs) :
    ∃ fs2, mvhfs_mount fresh id m2 = (some (0, fs2), m2) ∧
      (∀ capacity, mvhfs_list fs2 capacity = mvhfs_list w.fs capacity) ∧
      ∀ name buffer capacity size, (mvhfs_read fs2 name buffer capacity size m2).1 =
        (mvhfs_read w.fs name buffer capacity size w.machine).1 := by
  obtain ⟨d', hstart⟩ := SoundWorld.start hformat hmemory
  have hd' : d' = d := Option.some.inj (hstart.device.get.symm.trans hd)
  subst hd'
  have hworld := hstart.run events
  rw [hrun] at hworld
  have hm : w.fs.mounted ≠ 0 := by
    intro h0
    rw [exec_unmounted h0] at hop
    cases hop
  obtain ⟨rfl, hs⟩ := hworld.of_mounted hm
  obtain ⟨htable, hmount, hlive⟩ := mountable_damaged (hworld.device.withPlan plan)
    hworld.writable hs hop hdamage
  have hdevice : HasSectors m2 w.fs.device_id d' :=
    ⟨by rw [htable]; exact hworld.device.get, hworld.device.size⟩
  obtain ⟨failed, _, heq⟩ := mvhfs_mount_eq hdevice hs.room fresh
  rw [hmount, Option.elim_some] at heq
  refine ⟨w.fs, heq, fun _ => rfl, ?_⟩
  intro name buffer capacity size
  have hreads : readOn (m2.disk w.fs.device_id) w.fs = readOn (w.machine.disk w.fs.device_id) w.fs :=
    readOn_congr hlive
  rw [mvhfs_read_eq hdevice hs.room, mvhfs_read_eq hworld.device hs.room, hreads]

theorem damaged_wiped (id : UInt32) (d : BlockDevice) (fs : Mvhfs) (m : Machine) :
    Damaged id d fs m (m.writes id [(fs.superblock_slot.toNat, Buffer.ofMem 512 cleared)]) := by
  refine ⟨table_writes _ _ _, ?_, Or.inl ?_⟩
  · intro lba hl _
    rw [disk_writes, apply_cons, apply_nil, Function.update_of_ne hl]
  · rw [disk_writes, apply_cons, apply_nil, Function.update_self]
    have hm : slice (Buffer.ofMem 512 cleared).bytes 0 8 ≠ slice mvhfs_magic 0 8 := by
      decide +kernel
    grind [validate_superblock]

/-- The first file of the small disk is created, then the superblock of that change is wiped. -/
theorem damage_takes_the_first_file_back :
    ∃ m0 fs' m', mvhfs_format 0 smallMachine = (some 0, m0) ∧
      exec (formatted 0) (.create (some nameA)) (m0.withPlan []) = (some (0, fs'), m') ∧
      ∃ fs2, mvhfs_mount blankHandle 0
          (m'.writes 0 [(fs'.superblock_slot.toNat, Buffer.ofMem 512 cleared)]) =
        (some (0, fs2), m'.writes 0 [(fs'.superblock_slot.toNat, Buffer.ofMem 512 cleared)]) ∧
      ∀ capacity, mvhfs_list fs2 capacity = mvhfs_list (formatted 0) capacity := by
  obtain ⟨m0, hformat, hdevice, hs⟩ := small_disk
  have hrun : (World.run 0 ⟨blankHandle, m0⟩ [⟨.mount, [], blankHandle⟩]).2 =
      ⟨formatted 0, m0.withPlan []⟩ := by
    rw [World.run, mount_formatted hdevice hs]
    rfl
  have hop := exec_without_fault (hdevice.withPlan []) (by decide) hs small_create rfl
  refine ⟨m0, _, _, hformat, hop, ?_⟩
  obtain ⟨fs2, hmount, hlist, _⟩ := damage_takes_one_change_back hformat hdevice.get
    blankHandle rfl _ hrun _ [] hop (damaged_wiped 0 smallDevice _ _) blankHandle
  exact ⟨fs2, hmount, hlist⟩

end mvh.mvhfs
