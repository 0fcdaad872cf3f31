-- Failed writes: a call that meets a failed write gives -1 and leaves no trace.
import MvhKernel.MvhfsMap

open flat_memory write_list mvh.block mvh.crc

namespace mvh.mvhfs

/-! ## Where a changed directory looks -/

theorem liveIn_of_fields {dr dr' : Buffer 2048} {i : Nat} (hi : i < 32)
    (hf : ∀ off, off + 4 ≤ 64 → load32 dr'.bytes (entry_at i + off) =
      load32 dr.bytes (entry_at i + off)) {lba : Nat}
    (h : usedAt dr' i ≠ 0 ∧ (sizeAt dr' i).toNat ≤ 4096 ∧ slotAt dr' i ≤ 1 ∧
      ∃ k, k * 512 < (sizeAt dr' i).toNat ∧ lba = data_lba i (slotAt dr' i) + k) :
    LiveIn dr lba := by
  have hu : usedAt dr' i = usedAt dr i := hf 32 (by omega)
  have hs : sizeAt dr' i = sizeAt dr i := hf 36 (by omega)
  have hsl : slotAt dr' i = slotAt dr i := hf 44 (by omega)
  rw [hu, hs, hsl] at h
  exact ⟨i, hi, h⟩

section
variable {fs fs1 : Mvhfs} {op : Op} {ws : List (Nat × Buffer 512)}

theorem liveIn_planOf (h : planOf fs op = some (ws, fs1)) {lba : Nat}
    (hl : LiveIn fs1.directory lba) : LiveIn fs.directory lba ∨ lba ∈ ws.map Prod.fst := by
  obtain ⟨j, hj, he⟩ := hl
  -- An entry that the call does not edit looks where it looked.
  have ho : ∀ {i : Nat} {f : Mem → Mem}, fs1 = fs.edit f → EditsEntry (entry_at i) f → j ≠ i →
      LiveIn fs.directory lba := by
    intro i f hf1 hf hij
    subst hf1
    exact liveIn_of_fields hj (fun off hof => load32_edit_ne fs hf hj hij hof) he
  obtain ⟨hu, hm, hsl, k, hk, hlb⟩ := he
  rcases planOf_cases h with ⟨t, i, rfl, _, _, rfl, rfl⟩ |
    ⟨t, data, size, i, new_slot, rfl, _, _, rfl, rfl⟩ | ⟨t, i, rfl, _, rfl, rfl⟩
  · by_cases hij : j = i
    · subst hij
      have hs : sizeAt (fs.edit (createEdit t (entry_at j))).directory j = 0 := by
        rw [sizeAt, load32_edit fs _ hj (by omega), createEdit,
          load32_store32_ne _ _ (by omega), load32_store32_ne _ _ (by omega), load32_store32]
      rw [hs] at hk
      exact absurd hk (Nat.not_lt_zero _)
    · exact Or.inl (ho rfl (createEdit_outside t (entry_at i)) hij)
  · by_cases hij : j = i
    · subst hij
      right
      have hn : slotAt (fs.edit (writeEdit (entry_at j) size (crc32 data size.toNat)
          new_slot)).directory j = new_slot := by
        rw [slotAt, load32_edit fs _ hj (by omega), writeEdit, load32_store32]
      rw [hn] at hlb
      rw [dataWrites, List.map_map]
      exact List.mem_map.mpr ⟨k, List.mem_range.mpr (by omega), hlb.symm⟩
    · exact Or.inl (ho rfl (writeEdit_outside _ _ _ _) hij)
  · by_cases hij : j = i
    · subst hij
      have hfr : usedAt (fs.edit (removeEdit (entry_at j))).directory j = 0 := by
        rw [usedAt, load32_edit fs _ hj (by omega), removeEdit,
          load32_fill_zero _ (by omega) (by simp only [MVHFS_ENTRY_SIZE]; omega)]
      exact absurd hfr hu
    · exact Or.inl (ho rfl (removeEdit_outside _) hij)

variable {disk : Nat → Buffer 512} {d : BlockDevice}

theorem Sound.liveIn_after (h : Sound disk d fs) (hp : planOf fs op = some (ws, fs1)) (n : Nat)
    (s : UInt32) {lba : Nat}
    (hlv : LiveIn (directoryOn (apply disk ((ws ++ commitWrites d.sector_count fs1).take n)) s) lba) :
    LiveIn (directoryOn disk s) lba ∨ (LiveIn fs1.directory lba ∧ ws.length ≤ n) := by
  obtain ⟨i, hi, he⟩ := hlv
  have hlw := directory_lba_cases s
  have hdr := directory_lba_xor h.directory_slot_le
  have hsr := toNat_xor_one h.slot_le
  by_cases hm : directory_lba s + i / 8 ∈
      ((ws ++ commitWrites d.sector_count fs1).take n).map Prod.fst
  · right
    -- The sector is written, so it is a sector of the changed directory.
    have hs : ∀ w ∈ (ws ++ commitWrites d.sector_count fs1).take n,
        w.1 = directory_lba s + i / 8 → w ∉ ws ∧ w.2 = sectorOf fs1.directory (i / 8) := by
      intro w hw hl
      rcases mem_row hp (List.mem_of_mem_take hw) with ⟨j, hj, _, k, hk, hd⟩ | ⟨k, hk, rfl⟩ | rfl
      · have := data_lba_range (xor_one_le (h.slots j hj)) j
        omega
      · simp only at hl ⊢
        have hik : k = i / 8 := by omega
        refine ⟨fun hws => ?_, by rw [hik]⟩
        obtain ⟨_, hsp, _⟩ := planOf_some hp
        obtain ⟨j, hj, _, k', hk', hd⟩ := hsp _ hws
        have := data_lba_range (xor_one_le (h.slots j hj)) j
        simp only at hd
        omega
      · simp only at hl
        omega
    have hv : apply disk ((ws ++ commitWrites d.sector_count fs1).take n)
        (directory_lba s + i / 8) = sectorOf fs1.directory (i / 8) :=
      apply_of_forall _ _ hm fun w hw hl => (hs w hw hl).2
    refine ⟨liveIn_of_fields hi (fun off ho => ?_) he, ?_⟩
    · rw [load32_directoryOn _ _ hi ho, hv, load32_sectorOf _ (by omega) ho]
      congr 3
      omega
    · grind
  · left
    grind [load32_directoryOn, apply_of_not_mem, liveIn_of_fields]

end

/-! ## Disks that no caller can tell apart -/

/-- Both disks are sound for the handle, and they are the same where the handle looks. -/
structure AlikeDisks (d : BlockDevice) (fs : Mvhfs) (disk disk' : Nat → Buffer 512) : Prop where
  sound : Sound disk d fs
  sound' : Sound disk' d fs
  supers : ∀ lba ≤ 1, disk' lba = disk lba
  held : ∀ lba, Held fs lba → disk' lba = disk lba
  wrapped : fs.generation = 0 → (∀ lba < 10, disk' lba = disk lba) ∧
    ∀ slot lba, LiveIn (directoryOn disk slot) lba → disk' lba = disk lba

section
variable {d : BlockDevice} {fs fs1 : Mvhfs} {disk disk' : Nat → Buffer 512} {op : Op}
  {ws : List (Nat × Buffer 512)}

theorem AlikeDisks.live_changed (h : AlikeDisks d fs disk disk') (hp : planOf fs op = some (ws, fs1))
    {vs : List (Nat × Buffer 512)} (hvs : ∀ lba, lba ∈ ws.map Prod.fst → lba ∈ vs.map Prod.fst)
    {lba : Nat} (hl : LiveIn fs1.directory lba) : apply disk' vs lba = apply disk vs lba := by
  rcases liveIn_planOf hp hl with hold | hn
  · exact apply_agree vs (h.held lba (Or.inr (Or.inr hold)))
  · exact apply_agree_of_mem _ _ vs (hvs lba hn)

theorem AlikeDisks.part (h : AlikeDisks d fs disk disk') (hp : planOf fs op = some (ws, fs1)) {n : Nat}
    (hn : n < (ws ++ commitWrites d.sector_count fs1).length) :
    AlikeDisks d fs (apply disk ((ws ++ commitWrites d.sector_count fs1).take n))
      (apply disk' ((ws ++ commitWrites d.sector_count fs1).take n)) := by
  refine ⟨h.sound.part hp hn, h.sound'.part hp hn, fun lba hl => apply_agree _ (h.supers lba hl),
    fun lba hl => apply_agree _ (h.held lba hl), ?_⟩
  intro hg
  obtain ⟨hlw, hd⟩ := h.wrapped hg
  refine ⟨fun lba hl => apply_agree _ (hlw lba hl), ?_⟩
  intro s lba hlv
  rcases h.sound.liveIn_after hp n s hlv with hold | ⟨hnw, hln⟩
  · exact apply_agree _ (hd s lba hold)
  · refine h.live_changed hp ?_ hnw
    grind [List.take_append, List.take_of_length_le, List.map_append, List.mem_append_left]

theorem AlikeDisks.all (h : AlikeDisks d fs disk disk') (hp : planOf fs op = some (ws, fs1)) :
    AlikeDisks d (committed fs1) (apply disk (ws ++ commitWrites d.sector_count fs1))
      (apply disk' (ws ++ commitWrites d.sector_count fs1)) := by
  have hsn := h.sound.all hp
  have hlv : ∀ lba, LiveIn fs1.directory lba →
      apply disk' (ws ++ commitWrites d.sector_count fs1) lba =
        apply disk (ws ++ commitWrites d.sector_count fs1) lba := by
    intro lba
    refine h.live_changed hp fun lba hlb => ?_
    grind
  have hsp : ∀ lba ≤ 1, apply disk' (ws ++ commitWrites d.sector_count fs1) lba =
      apply disk (ws ++ commitWrites d.sector_count fs1) lba :=
    fun lba hlb => apply_agree _ (h.supers lba hlb)
  have hd : ∀ k < 4, apply disk' (ws ++ commitWrites d.sector_count fs1)
        (directory_lba (committed fs1).directory_slot + k) =
      apply disk (ws ++ commitWrites d.sector_count fs1)
        (directory_lba (committed fs1).directory_slot + k) := by
    intro k hk
    apply apply_agree_of_mem
    rw [List.map_append, commitWrites, List.map_append]
    refine List.mem_append_right _ (List.mem_append_left _ ?_)
    exact List.mem_map.mpr ⟨_, List.mem_map.mpr ⟨k, List.mem_range.mpr hk, rfl⟩, rfl⟩
  refine ⟨hsn, h.sound'.all hp, hsp, ?_, ?_⟩
  · rintro lba (rfl | ⟨k, hk, rfl⟩ | hl)
    · have := toNat_xor_one hsn.slot_le
      exact hsp _ (by omega)
    · exact hd k hk
    · exact hlv lba hl
  · intro _
    obtain ⟨_, _, _, _, f, _, rfl, _⟩ := planOf_some hp
    have hcs := directory_lba_xor h.sound.directory_slot_le
    have hsl : (committed (fs.edit f)).directory_slot = fs.directory_slot ^^^ 1 := rfl
    rw [hsl] at hd
    have hold : ∀ k < 4, apply disk (ws ++ commitWrites d.sector_count (fs.edit f))
        (directory_lba fs.directory_slot + k) = disk (directory_lba fs.directory_slot + k) := by
      intro k hk
      have := h.sound.held hp (ws ++ commitWrites d.sector_count (fs.edit f)).length
        (Or.inr (Or.inl ⟨k, hk, rfl⟩))
      rwa [List.take_length] at this
    refine ⟨?_, ?_⟩
    · intro lba hlb
      by_cases h2 : lba ≤ 1
      · exact hsp lba h2
      · have hpl : (∃ k < 4, lba = directory_lba fs.directory_slot + k) ∨
            ∃ k < 4, lba = directory_lba (fs.directory_slot ^^^ 1) + k := by
          rcases hcs with ⟨h1, h3⟩ | ⟨h1, h3⟩
          · rcases (by omega : lba < 6 ∨ 6 ≤ lba) with h4 | h4
            · exact Or.inl ⟨lba - 2, by omega, by omega⟩
            · exact Or.inr ⟨lba - 6, by omega, by omega⟩
          · rcases (by omega : lba < 6 ∨ 6 ≤ lba) with h4 | h4
            · exact Or.inr ⟨lba - 2, by omega, by omega⟩
            · exact Or.inl ⟨lba - 6, by omega, by omega⟩
        rcases hpl with ⟨k, hk, rfl⟩ | ⟨k, hk, rfl⟩
        · exact apply_agree _ (h.held _ (Or.inr (Or.inl ⟨k, hk, rfl⟩)))
        · exact hd k hk
    · intro slot lba hl
      -- One copy is the changed directory, the other one is still the old directory.
      have hlw := directory_lba_cases slot
      rcases (by omega : directory_lba slot = directory_lba fs.directory_slot ∨
          directory_lba slot = directory_lba (fs.directory_slot ^^^ 1)) with hs | hs
      · have hc : directoryOn (apply disk (ws ++ commitWrites d.sector_count (fs.edit f))) slot =
            fs.directory := by
          have hsm : directoryOn (apply disk (ws ++ commitWrites d.sector_count (fs.edit f))) slot =
              directoryOn disk slot := directoryOn_congr fun k hk => by rw [hs]; exact hold k hk
          rw [hsm, h.sound.directory, directoryOn, directoryOn, hs]
        rw [hc] at hl
        exact apply_agree _ (h.held lba (Or.inr (Or.inr hl)))
      · have hc : directoryOn (apply disk (ws ++ commitWrites d.sector_count (fs.edit f))) slot =
            (fs.edit f).directory := by
          have hn := hsn.directory
          rw [hsl, directoryOn] at hn
          rw [directoryOn, hs]
          exact hn.symm
        grind

theorem candidate_congr {id slot : UInt32} (hsl : slot ≤ 1)
    (h : ∀ lba < 10, disk' lba = disk lba) :
    candidate disk' d id slot = candidate disk d id slot := by
  have hs := toNat_xor_one hsl
  have hsp : superOn disk' d slot = superOn disk d slot := superOn_congr (h _ (by omega))
  have hf : handleFrom disk' id slot = handleFrom disk id slot := by
    grind [handleFrom, handleOf, directoryOn_congr, directory_lba_cases]
  rw [candidate, candidate, hsp, hf]

theorem AlikeDisks.mount (h : AlikeDisks d fs disk disk') :
    ∃ fs', mountable disk d fs.device_id = some fs' ∧ mountable disk' d fs.device_id = some fs' ∧
      fs'.device_id = fs.device_id ∧ AlikeDisks d fs' disk disk' := by
  by_cases hg : fs.generation = 0
  · obtain ⟨hlw, hd⟩ := h.wrapped hg
    have hsm : mountable disk' d fs.device_id = mountable disk d fs.device_id := by
      grind [candidate_congr, mountable]
    obtain ⟨fs', hm, hid, hs⟩ := h.sound.mountable_some
    obtain ⟨fs2, hm2, _, hs2⟩ := h.sound'.mountable_some
    have hf2 : fs2 = fs' := by grind
    subst hf2
    refine ⟨fs2, hm, hm2, hid, hs, hs2, h.supers, ?_, fun _ => ⟨hlw, hd⟩⟩
    rintro lba (rfl | ⟨k, hk, rfl⟩ | hl)
    · have := toNat_xor_one hs.slot_le
      exact h.supers _ (by omega)
    · grind [directory_lba_cases]
    · unfold Live at hl
      rw [hs.directory] at hl
      exact hd _ lba hl
  · exact ⟨fs, h.sound.mountable_eq hg, h.sound'.mountable_eq hg, rfl, h⟩

end

/-! ## Machines that no caller can tell apart -/

/-- Two machines with the same handle that give the same answers. -/
structure Alike (id : UInt32) (d : BlockDevice) (fs : Mvhfs) (m m' : Machine) : Prop where
  device : HasSectors m id d
  device' : HasSectors m' id d
  writable : d.writable ≠ 0
  handle : fs.device_id = id
  plan : m'.plan = m.plan
  disks : AlikeDisks d fs (m.disk id) (m'.disk id)

section
variable {id : UInt32} {d : BlockDevice} {fs : Mvhfs} {m m' : Machine}

theorem Alike.withPlan (h : Alike id d fs m m') (p : List Outcome) :
    Alike id d fs (m.withPlan p) (m'.withPlan p) :=
  ⟨h.device.withPlan p, h.device'.withPlan p, h.writable, h.handle, rfl, h.disks⟩

theorem Alike.play (h : Alike id d fs m m') (row : List (Nat × Buffer 512)) {fs' : Mvhfs}
    (hid : fs'.device_id = id)
    (hd : AlikeDisks d fs' (apply (m.disk id) (row.take (played m.plan row.length)))
      (apply (m'.disk id) (row.take (played m.plan row.length)))) :
    Alike id d fs' (m.play id row) (m'.play id row) := by
  refine ⟨⟨by rw [table_play]; exact h.device.get, h.device.size⟩,
    ⟨by rw [table_play]; exact h.device'.get, h.device'.size⟩, h.writable, hid,
    by rw [plan_play, plan_play, h.plan], ?_⟩
  rw [disk_play, disk_play, h.plan]
  exact hd

/-- A call gives the same on both machines, and leaves them alike. -/
def SameCall (id : UInt32) (d : BlockDevice) (fs : Mvhfs) (m m' : Machine) (c : Call) : Prop :=
  ∃ r m1 m1', invoke id fs c m = (r, m1) ∧ invoke id fs c m' = (r, m1') ∧
    match r with
    | some (_, fs') => Alike id d fs' m1 m1'
    | none => Alike id d fs m1 m1'

theorem Alike.change (h : Alike id d fs m m') (op : Op) : SameCall id d fs m m' (.change op) := by
  have ha := h
  obtain ⟨hdv, hd', hw, rfl, hpl, hd⟩ := h
  rcases hp : planOf fs op with _ | ⟨ws, fs1⟩
  · exact ⟨_, m, m', invoke_refused hdv hp, invoke_refused hd' hp, ha⟩
  · obtain ⟨_, _, _, _, f, _, hf1, _⟩ := planOf_some hp
    have hi := invoke_row fs.device_id hdv hw hd.sound hp rfl
    have hinv' := invoke_row fs.device_id hd' hw hd.sound' hp rfl
    rw [hpl] at hinv'
    refine ⟨_, _, _, hi, hinv', ?_⟩
    have hpr : ending m.plan (ws ++ commitWrites d.sector_count fs1).length ≠ .done →
        Alike fs.device_id d fs (m.play fs.device_id (ws ++ commitWrites d.sector_count fs1))
          (m'.play fs.device_id (ws ++ commitWrites d.sector_count fs1)) := by
      intro he
      rw [ne_eq, ending_done_iff] at he
      exact ha.play _ rfl (hd.part hp (Nat.lt_of_le_of_ne (played_le _ _) he))
    rcases he : ending m.plan (ws ++ commitWrites d.sector_count fs1).length
    · refine ha.play _ (by rw [hf1]; rfl) ?_
      rw [(ending_done_iff _ _).mp he, List.take_length]
      exact hd.all hp
    · exact hpr (by rw [he]; decide)
    · exact hpr (by rw [he]; decide)

theorem Alike.mount (h : Alike id d fs m m') (mm : Mvhfs) :
    ∃ fs', invoke id mm .mount m = (some (.status 0, fs'), m) ∧
      invoke id mm .mount m' = (some (.status 0, fs'), m') ∧ Alike id d fs' m m' := by
  obtain ⟨hdv, hd1, hw, rfl, hp, hd⟩ := h
  obtain ⟨fs', hm, hm', hid, hd'⟩ := hd.mount
  exact ⟨fs', invoke_mount hdv hd.sound.room mm hm,
    invoke_mount hd1 hd.sound.room mm hm', hdv, hd1, hw, hid, hp, hd'⟩

theorem Alike.invoke (h : Alike id d fs m m') (c : Call) : SameCall id d fs m m' c := by
  rcases c with _ | op | ⟨n, buffer, cp, s⟩ | cp
  · obtain ⟨fs', hi, hi', ha⟩ := h.mount fs
    exact ⟨_, _, _, hi, hi', ha⟩
  · exact h.change op
  · have ha := h
    obtain ⟨hdv, hd', hw, rfl, hp, hd⟩ := h
    have hr : readOn (m'.disk fs.device_id) fs = readOn (m.disk fs.device_id) fs :=
      readOn_congr fun lba hl => hd.held lba (Or.inr (Or.inr hl))
    have hi' : mvhfs.invoke fs.device_id fs (.read n buffer cp s) m' = _ :=
      invoke_read hd' hd.sound.room n buffer cp s
    rw [hr] at hi'
    exact ⟨_, m, m', invoke_read hdv hd.sound.room n buffer cp s, hi', ha⟩
  · exact ⟨_, m, m', invoke_list cp, invoke_list cp, h⟩

theorem Alike.restart (h : Alike id d fs m m') (mm : Mvhfs) :
    ∃ answer fs', World.restart id mm m = (answer, ⟨fs', m⟩) ∧
      World.restart id mm m' = (answer, ⟨fs', m'⟩) ∧ Alike id d fs' m m' := by
  obtain ⟨fs', hi, hi', ha⟩ := h.mount mm
  refine ⟨.cut (some (.status 0)), fs', ?_, ?_, ha⟩
  · rw [World.restart, hi]
  · rw [World.restart, hi']

theorem Alike.event (h : Alike id d fs m m') (e : Event) :
    ∃ answer fs' m1 m1', World.event id ⟨fs, m⟩ e = (answer, ⟨fs', m1⟩) ∧
      World.event id ⟨fs, m'⟩ e = (answer, ⟨fs', m1'⟩) ∧ Alike id d fs' m1 m1' := by
  obtain ⟨r, m1, m1', hi, hi', ha⟩ := (h.withPlan e.plan).invoke e.call
  unfold World.event
  rw [hi, hi']
  rcases r with _ | ⟨rp, fs'⟩
  · obtain ⟨answer, fs2, hr, hr', h2⟩ := Alike.restart ha e.memory
    exact ⟨answer, fs2, m1, m1', hr, hr', h2⟩
  · have hl : Outcome.cut ∈ m1'.plan ↔ Outcome.cut ∈ m1.plan := by rw [Alike.plan ha]
    by_cases hc : Outcome.cut ∈ m1.plan
    · obtain ⟨answer, fs2, hr, hr', h2⟩ := Alike.restart ha e.memory
      grind
    grind

theorem Alike.run (h : Alike id d fs m m') (es : List Event) :
    (World.run id ⟨fs, m'⟩ es).1 = (World.run id ⟨fs, m⟩ es).1 := by
  induction es generalizing fs m m' with
  | nil => rfl
  | cons e es ih =>
    obtain ⟨answer, fs', m1, m1', he, he', ha⟩ := h.event e
    grind [World.run]

end

/-! ## A failed write -/

theorem exec_at_failure {d : BlockDevice} {fs fs1 : Mvhfs} {m : Machine} {op : Op}
    {ws : List (Nat × Buffer 512)} (h : HasSectors m fs.device_id d) (hw : d.writable ≠ 0)
    (hs : Sound (m.disk fs.device_id) d fs) (hp : planOf fs op = some (ws, fs1)) {k : Nat}
    (hk : k < (ws ++ commitWrites d.sector_count fs1).length) :
    ∃ m', exec fs op (m.withPlan (List.replicate k .done ++ [.fail])) = (some (-1, fs), m') ∧
      m'.plan = [] ∧ m'.table = m.table ∧ m'.disk fs.device_id =
        apply (m.disk fs.device_id) ((ws ++ commitWrites d.sector_count fs1).take k) := by
  have hm : 522 ≤ d.sector_count.toNat := hs.room
  obtain ⟨hpl, he, ha⟩ := plan_fails hk
  have hr := exec_eq (h.withPlan (List.replicate k .done ++ [.fail])) op
  rw [hp] at hr
  simp only at hr
  rw [perform_eq (h.withPlan _) hw _ fun v hv =>
    Nat.lt_of_lt_of_le (row_in_area hp hs.slot_le hs.slots v hv) hm, plan_withPlan, he] at hr
  refine ⟨_, hr, ?_, by rw [table_play, table_withPlan], ?_⟩
  · rw [plan_play, plan_withPlan, ha]
  · rw [disk_play, plan_withPlan, disk_withPlan, hpl]

theorem exec_failed {id : UInt32} {d : BlockDevice} {w : World} (h : SoundWorld id d w)
    (hm : w.fs.mounted ≠ 0) {op : Op} {k : Nat} {r : Option (Int × Mvhfs)} {m' : Machine}
    (he : exec w.fs op (w.machine.withPlan (List.replicate k .done ++ [.fail])) = (r, m'))
    (hf : Outcome.fail ∉ m'.plan) :
    r = some (-1, w.fs) ∧ m'.table = w.machine.table ∧ Sound (m'.disk id) d w.fs ∧
      (∀ lba ≤ 1, m'.disk id lba = w.machine.disk id lba) ∧
      ∀ lba, Held w.fs lba → m'.disk id lba = w.machine.disk id lba := by
  obtain ⟨hid, hs⟩ := h.of_mounted hm
  subst hid
  have hd := h.device.withPlan (List.replicate k .done ++ [.fail])
  rcases hp : planOf w.fs op with _ | ⟨ws, fs1⟩
  · grind [exec_eq]
  by_cases hk : k < (ws ++ commitWrites d.sector_count fs1).length
  · obtain ⟨m1, he1, _, ht, hds⟩ := exec_at_failure h.device h.writable hs hp hk
    rw [he] at he1
    obtain ⟨rfl, rfl⟩ := Prod.mk.inj he1
    have hsp := toNat_xor_one hs.slot_le
    rw [hds]
    refine ⟨rfl, ht, hs.part hp hk, ?_, fun lba hh => hs.held hp _ hh⟩
    intro lba hl
    rcases (by omega : lba = w.fs.superblock_slot.toNat ∨
        lba = (w.fs.superblock_slot ^^^ 1).toNat) with rfl | rfl
    · exact hs.held hp _ (Or.inl rfl)
    · exact hs.other_after hp hk
  · have hmn : 522 ≤ d.sector_count.toNat := hs.room
    have hr := exec_eq hd op
    rw [he, hp] at hr
    simp only at hr
    rw [perform_eq hd h.writable _ fun v hv =>
      Nat.lt_of_lt_of_le (row_in_area hp hs.slot_le hs.slots v hv) hmn] at hr
    obtain ⟨_, rfl⟩ := Prod.mk.inj hr
    rw [plan_play, plan_withPlan] at hf
    exact absurd (plan_keeps_failure (Nat.not_lt.mp hk)) hf

/-- A call that meets a failed write gives -1, leaves the handle as it was, and changes no read.
When the generation of the handle is not 0, it changes no later answer. -/
theorem a_failed_write_leaves_no_trace {id : UInt32} {m m0 : Machine} {memory : Mvhfs}
    (hformat : mvhfs_format id m = (some 0, m0)) (hmemory : memory.mounted = 0)
    (events : List Event) {w : World} (hrun : (World.run id ⟨memory, m0⟩ events).2 = w)
    (hmounted : w.fs.mounted ≠ 0) (op : Op) (k : Nat) {r : Option (Int × Mvhfs)} {m' : Machine}
    (hexec : exec w.fs op (w.machine.withPlan (List.replicate k .done ++ [.fail])) = (r, m'))
    (hfail : Outcome.fail ∉ m'.plan) :
    r = some (-1, w.fs) ∧
      (∀ name buffer capacity size, (mvhfs_read w.fs name buffer capacity size m').1 =
        (mvhfs_read w.fs name buffer capacity size w.machine).1) ∧
      (w.fs.generation ≠ 0 →
        ∀ later, (World.run id ⟨w.fs, m'⟩ later).1 = (World.run id w later).1) := by
  obtain ⟨d, hstart⟩ := SoundWorld.start hformat hmemory
  have hworld := hstart.run events
  rw [hrun] at hworld
  obtain ⟨hid, hs⟩ := hworld.of_mounted hmounted
  obtain ⟨hr, htable, hs', hsupers, hheld⟩ := exec_failed hworld hmounted hexec hfail
  have hdevice' : HasSectors m' id d := ⟨by rw [htable]; exact hworld.device.get, hworld.device.size⟩
  refine ⟨hr, ?_, ?_⟩
  · intro name buffer capacity size
    subst hid
    have hreads : readOn (m'.disk w.fs.device_id) w.fs = readOn (w.machine.disk w.fs.device_id) w.fs :=
      readOn_congr fun lba hlive => hheld lba (Or.inr (Or.inr hlive))
    rw [mvhfs_read_eq hdevice' hs.room, mvhfs_read_eq hworld.device hs.room, hreads]
  · intro hgen later
    have halike : Alike id d w.fs (w.machine.withPlan m'.plan) m' :=
      ⟨hworld.device.withPlan _, hdevice', hworld.writable, hid, rfl,
        hs, hs', hsupers, hheld, fun h0 => absurd h0 hgen⟩
    rw [halike.run later]
    cases later <;> rfl

/-- A create on the small disk in which the third write fails. -/
theorem a_failed_create_leaves_no_trace : ∃ m0 m',
    mvhfs_format 0 smallMachine = (some 0, m0) ∧
      (World.run 0 ⟨blankHandle, m0⟩ [plain .mount]).2 = ⟨formatted 0, m0.withPlan []⟩ ∧
      exec (formatted 0) (.create (some nameA))
        ((m0.withPlan []).withPlan (List.replicate 2 .done ++ [.fail])) =
          (some (-1, formatted 0), m') ∧
      ∀ later, (World.run 0 ⟨formatted 0, m'⟩ later).1 =
        (World.run 0 ⟨formatted 0, m0.withPlan []⟩ later).1 := by
  obtain ⟨m0, hformat, hdevice, hs⟩ := small_disk
  have hrun : (World.run 0 ⟨blankHandle, m0⟩ [plain .mount]).2 = ⟨formatted 0, m0.withPlan []⟩ := by
    rw [World.run, plain, mount_formatted hdevice hs]
    rfl
  obtain ⟨m', hexec, hplan, _⟩ := exec_at_failure (hdevice.withPlan []) (by decide) hs small_create
    (by simp [commitWrites, directoryWrites] : 2 < _)
  have hnone : Outcome.fail ∉ m'.plan := by simp [hplan]
  have hgen : (formatted 0).generation ≠ 0 := by simp [formatted]
  exact ⟨m0, m', hformat, hrun, hexec, (a_failed_write_leaves_no_trace hformat rfl _ hrun
    (by simp [formatted]) _ 2 hexec hnone).2.2 hgen⟩

/-! ## A failed write after a history that is too long

The handle that a mount then gives is the old one, and its copy of the file is the spare copy of
the handle in use. -/

theorem entry_name_equal_loop_congr {e e' n : Mem} (f k : Nat)
    (h : ∀ x < k + f, e' x = e x) :
    entry_name_equal_loop e' n f k = entry_name_equal_loop e n f k := by
  induction f generalizing k with
  | zero => rfl
  | succ f ih => grind [entry_name_equal_loop]

theorem find_entry_writeEdit (fs : Mvhfs) (i : Nat) (s crc sl : UInt32) (text : Mem) :
    find_entry (fs.edit (writeEdit (entry_at i) s crc sl)) text = find_entry fs text := by
  unfold find_entry
  apply List.find?_congr
  intro j hj
  have hj' : j < 32 := List.mem_range.mp hj
  have hat : ∀ n, entry_at n = n * 64 := fun _ => rfl
  have hb : ∀ x < 36, shift (fs.edit (writeEdit (entry_at i) s crc sl)).directory.bytes
      (entry_at j) x = shift fs.directory.bytes (entry_at j) x := by
    intro x hx
    rw [hat, hat, shift, shift, Mvhfs.edit, Buffer.bytes_ofMem _ (by omega), writeEdit,
      store32_outside _ _ (by omega), store32_outside _ _ (by omega),
      store32_outside _ _ (by omega)]
  have hu : load32 (shift (fs.edit (writeEdit (entry_at i) s crc sl)).directory.bytes
      (entry_at j)) 32 = load32 (shift fs.directory.bytes (entry_at j)) 32 := by grind [load32_congr]
  grind [entry_name_equal, entry_name_equal_loop_congr, MVHFS_NAME_MAX]

theorem planOf_writeA {fs : Mvhfs} {i : Nat} (h : fileOf fs nameA = some i) (b : UInt8) :
    planOf fs (writeA b) = some (dataWrites i (slotAt fs.directory i ^^^ 1) (fun _ => b) 1,
      fs.edit (writeEdit (entry_at i) 1 (crc32 (some fun _ => b) 1) (slotAt fs.directory i ^^^ 1))) := by
  rw [writeA, planOf, if_neg (by simp [MVHFS_FILE_MAX]), h]
  rfl

theorem planOf_writeA_again {fs fs1 : Mvhfs} {ws : List (Nat × Buffer 512)} {a : UInt8}
    (hp : planOf fs (writeA a) = some (ws, fs1)) (hm : fs1.mounted = 1) (b : UInt8) :
    ∃ i fs2, fileOf fs nameA = some i ∧ planOf (committed fs1) (writeA b) =
      some (dataWrites i (slotAt fs.directory i) (fun _ => b) 1, fs2) := by
  rcases hi : fileOf fs nameA with _ | i
  · simp [writeA, planOf, hi] at hp
  rw [planOf_writeA hi, Option.some.injEq, Prod.mk.injEq] at hp
  obtain ⟨_, hf1⟩ := hp
  obtain ⟨hi1, _, _, hf⟩ := fileOf_some hi
  have hfl : fileOf (committed fs1) nameA = some i := by
    rw [fileOf_valid (show (committed fs1).mounted = 1 from hm) nameOf_nameA, ← hf1]
    exact (find_entry_writeEdit fs i _ _ _ nameA).trans hf
  have hs : slotAt (committed fs1).directory i = slotAt fs.directory i ^^^ 1 := by
    have hd : (committed fs1).directory = fs1.directory := rfl
    rw [hd, ← hf1, slotAt, load32_edit fs _ hi1 (by omega), writeEdit, load32_store32]
  have hp2 := planOf_writeA hfl b
  grind [UInt32.xor_assoc, UInt32.xor_self, UInt32.xor_zero]

theorem readOn_overwritten {id : UInt32} {d : BlockDevice} {fs : Mvhfs} {m : Machine} {f : Files}
    (disk : Nat → Buffer 512) (h : Shows id d ⟨fs, m⟩ f)
    (hf : f.lookup fileA = some (byte 0)) {i : Nat} (hi : fileOf fs nameA = some i)
    (hd : disk (data_lba i (slotAt fs.directory i)) = dataSector (fun _ => 2) 1 0) :
    (readOn disk fs (some nameA) true 1 true).output = [2] := by
  obtain ⟨t, ht, hs⟩ := h.table
  obtain ⟨j, hj, c, hfn, htb, hl⟩ :=
    ht.find_entry_mem hs nameOf_nameA (Finmap.mem_of_lookup_eq_some hf)
  have hij : j = i := by
    rw [(fileOf_some hi).2.2.2] at hfn
    exact (Option.some.inj hfn).symm
  subst hij
  have he := ht j hj
  rw [hf] at hl
  rw [htb, ← Option.some.inj hl] at he
  have hsz : sizeAt fs.directory j = 1 := EntryHolds.size he
  have hsl : ¬ slotAt fs.directory j > 1 := UInt32.not_lt.mpr (EntryHolds.slot he)
  have hb : slice (dataFrom disk (data_lba j (slotAt fs.directory j))) 0 1 = [2] := by
    simp [slice, dataFrom, hd, dataSector, Buffer.bytes_ofMem]
  unfold readOn
  simp only [hi, Bool.true_eq_false, if_false]
  unfold readEntry
  simp only [hsz]
  rw [if_neg (by simp [MVHFS_FILE_MAX]), if_neg hsl]
  exact hb

theorem mount_then_readA {id : UInt32} {d : BlockDevice} {m : Machine} {fs : Mvhfs} (mm : Mvhfs)
    (h : HasSectors m id d) (hc : MVHFS_MIN_SECTORS ≤ d.sector_count) (hid : fs.device_id = id)
    (hm : mountable (m.disk id) d id = some fs) :
    (World.run id ⟨mm, m⟩ [plain .mount, plain readA]).1 =
      [.replied (.status 0),
        .replied (.read (readOn (m.disk id) fs (some nameA) true 1 true))] := by
  subst hid
  have hf : World.event fs.device_id ⟨mm, m⟩ (plain .mount) =
      (.replied (.status 0), ⟨fs, m.withPlan []⟩) :=
    event_plain (invoke_mount (h.withPlan []) hc mm hm) rfl
  have hs : World.event fs.device_id ⟨fs, m.withPlan []⟩ (plain readA) =
      (.replied (.read (readOn (m.disk fs.device_id) fs (some nameA) true 1 true)),
        ⟨fs, m.withPlan []⟩) :=
    event_plain (invoke_read (h.withPlan []) hc (some nameA) true 1 true) rfl
  simp [World.run, hf, hs]

theorem longHistory_failed_write {m0 : Machine} (hd : HasSectors m0 0 smallDevice)
    (hs : Sound (m0.disk 0) smallDevice (formatted 0)) {n : Nat} (hn : UInt64.ofNat n = 0 - 4) :
    ∃ w m', (World.calls 0 ⟨blankHandle, m0⟩ (.mount :: longHistory n)).2 = w ∧ w.fs.mounted ≠ 0 ∧
      exec w.fs (writeA 2) (w.machine.withPlan (List.replicate 8 .done ++ [.fail])) =
        (some (-1, w.fs), m') ∧
      Outcome.fail ∉ m'.plan ∧
      (World.run 0 ⟨w.fs, m'⟩ [plain .mount, plain readA]).1 ≠
        (World.run 0 w [plain .mount, plain readA]).1 := by
  have hsh := shows_formatted (hd.withPlan []) (by decide) hs
  obtain ⟨fs, ws, fs1, m, hp, hrn, hg, ⟨f, hnw, _⟩, ⟨f0, hold, hf0⟩⟩ :=
    longHistory_shows hsh rfl hn
  have hst : (World.calls 0 ⟨blankHandle, m0⟩ (.mount :: longHistory n)).2 =
      ⟨committed fs1, m⟩ := by
    have hmn : World.event 0 ⟨blankHandle, m0⟩ (plain .mount) = _ :=
      mount_formatted hd hs blankHandle blankHandle
    rw [calls_cons hmn]
    simp only
    exact hrn
  have hm : fs1.mounted = 1 := hnw.sound.mounted
  obtain ⟨i, fs2, hi, hp2⟩ := planOf_writeA_again hp hm 2
  have hid : (committed fs1).device_id = 0 := hnw.handle
  generalize committed fs1 = fs' at hnw hst hp2 hid
  obtain ⟨hd', hw, _, hsn, _⟩ := hnw
  have hsound' := hsn
  rw [← hid] at hd' hsound'
  obtain ⟨m', he, hpl, htb, hds⟩ := exec_at_failure hd' hw hsound' hp2
    (by simp [dataWrites, commitWrites] : 8 < _)
  have hr := hold.sound.room
  have hmn := hold.sound.mountable_eq hg
  rw [hold.handle] at hmn
  have htk : (dataWrites i (slotAt fs.directory i) (fun _ => 2) 1 ++
      commitWrites smallDevice.sector_count fs2).take 8 =
        dataWrites i (slotAt fs.directory i) (fun _ => 2) 1 := by
    simp [List.take_append_of_le_length, List.take_of_length_le, dataWrites]
  rw [hid, htk] at hds
  have hl : ∀ lba < 10, m'.disk 0 lba = m.disk 0 lba := by
    intro lba hlb
    rw [hds, apply_of_not_mem]
    intro w hw
    obtain ⟨k, _, rfl⟩ := List.mem_map.mp hw
    grind [data_lba_eq]
  have hm' : mountable (m'.disk 0) smallDevice 0 = some fs := by
    grind [candidate_congr, mountable]
  have hread' := readOn_overwritten (m'.disk 0) hold hf0 hi
    (by rw [hds]; exact apply_dataWrites _ _ _ _ _ (by decide : 0 < 8))
  have hrd : readOn (m.disk 0) fs (some nameA) true 1 true = ⟨0, some 1, [0]⟩ := by
    obtain ⟨t, ht, hsr⟩ := hold.table
    rw [ht.readOn_eq hsr hold.sound.mounted, read_fileA hf0]
  have hd2 : HasSectors m' 0 smallDevice := ⟨by rw [htb]; exact hold.device.get, rfl⟩
  refine ⟨⟨fs', m⟩, m', hst, ?_, he, by simp [hpl], ?_⟩
  · rw [hsn.mounted]
    decide
  · rw [mount_then_readA fs' hd2 hr hold.handle hm',
      mount_then_readA fs' hold.device hr hold.handle hmn, hrd]
    grind

/-- After 2^64 - 1 commits a failed write changes a later answer. -/
theorem a_failed_write_can_show_later : ∃ m0 w m',
    mvhfs_format 0 smallMachine = (some 0, m0) ∧
      (World.calls 0 ⟨blankHandle, m0⟩ (.mount :: longHistory (2 ^ 64 - 4))).2 = w ∧
      w.fs.mounted ≠ 0 ∧
      exec w.fs (writeA 2) (w.machine.withPlan (List.replicate 8 .done ++ [.fail])) =
        (some (-1, w.fs), m') ∧
      Outcome.fail ∉ m'.plan ∧
      (World.run 0 ⟨w.fs, m'⟩ [plain .mount, plain readA]).1 ≠
        (World.run 0 w [plain .mount, plain readA]).1 := by
  obtain ⟨m0, hformat, hdevice, hs⟩ := small_disk
  have hn : UInt64.ofNat (2 ^ 64 - 4) = 0 - 4 := by decide
  generalize 2 ^ 64 - 4 = n at hn ⊢
  obtain ⟨w, m', h⟩ := longHistory_failed_write hdevice hs hn
  exact ⟨m0, w, m', hformat, h⟩

end mvh.mvhfs
