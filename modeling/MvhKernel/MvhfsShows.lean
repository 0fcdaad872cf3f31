-- The handle and the disk show a map of files.
import MvhKernel.MvhfsRuns
import MvhKernel.MvhfsRefine

open flat_memory write_list slot_table mvh.block mvh.crc

namespace mvh.mvhfs

/-! ## The commits so far -/

def commitsIn (id : UInt32) (log : List (UInt32 × Nat)) : Nat :=
  log.countP fun w => w.1 = id ∧ w.2 ≤ 1

theorem commitsIn_append (id : UInt32) (log log' : List (UInt32 × Nat)) :
    commitsIn id (log ++ log') = commitsIn id log + commitsIn id log' :=
  List.countP_append

theorem commitsIn_take (id : UInt32) {first : List (Nat × Buffer 512)} {ls : Nat × Buffer 512}
    (hf : ∀ w ∈ first, ¬ w.1 ≤ 1) (hl : ls.1 ≤ 1) {k : Nat}
    (hk : k ≤ (first ++ [ls]).length) :
    commitsIn id (((first ++ [ls]).take k).map fun w => (id, w.1)) =
      if k = (first ++ [ls]).length then 1 else 0 := by
  have hn : ∀ l : List (Nat × Buffer 512), (∀ w ∈ l, ¬ w.1 ≤ 1) →
      commitsIn id (l.map fun w => (id, w.1)) = 0 := by simp [List.countP_eq_zero, commitsIn]
  by_cases ha : k = (first ++ [ls]).length
  · rw [if_pos ha, ha, List.take_length, List.map_append, commitsIn_append, hn first hf]
    simp [commitsIn, hl]
  grind

theorem commitsIn_row {fs fs1 : Mvhfs} {op : Op} {ws : List (Nat × Buffer 512)} {c : UInt64}
    (h : planOf fs op = some (ws, fs1)) (hs : fs.superblock_slot ≤ 1) (hsl : SlotsOk fs.directory)
    (id : UInt32) {k : Nat} (hk : k ≤ (ws ++ commitWrites c fs1).length) :
    commitsIn id (((ws ++ commitWrites c fs1).take k).map fun w => (id, w.1)) =
      if k = (ws ++ commitWrites c fs1).length then 1 else 0 := by
  obtain ⟨_, hsp, i, hi, f, _, rfl, _⟩ := planOf_some h
  have hsr := toNat_xor_one hs
  rw [commitWrites, ← List.append_assoc] at hk ⊢
  refine commitsIn_take id ?_ (by show (fs.superblock_slot ^^^ 1).toNat ≤ 1; omega) hk
  intro w hw
  rcases List.mem_append.mp hw with hw | hw
  · obtain ⟨i, hi, _, j, hj, hl⟩ := hsp w hw
    have := data_lba_range (xor_one_le (hsl i hi)) i
    omega
  · obtain ⟨j, hj, rfl⟩ := List.mem_map.mp hw
    grind [directory_lba_cases]

/-! ## Shown files -/

/-- The handle of the world is sound, and it shows these files. -/
structure Shows (id : UInt32) (d : BlockDevice) (w : World) (files : Files) : Prop where
  device : HasSectors w.machine id d
  writable : d.writable ≠ 0
  handle : w.fs.device_id = id
  sound : Sound (w.machine.disk id) d w.fs
  table : ∃ table, Tabled (w.machine.disk id) w.fs.directory table ∧ Stores 32 table files

section
variable {id : UInt32} {d : BlockDevice} {fs : Mvhfs} {m : Machine} {files : Files}

theorem Shows.withPlan (h : Shows id d ⟨fs, m⟩ files) (p : List Outcome) :
    Shows id d ⟨fs, m.withPlan p⟩ files :=
  ⟨h.device.withPlan p, h.writable, h.handle, h.sound, h.table⟩

def Exposes (fs : Mvhfs) (m : Machine) (files : Files) : Prop :=
  (∃ l, files.Listing l ∧
    ∀ capacity, mvhfs_list fs capacity = (l.length, (l.take capacity).map listed)) ∧
  ∀ name buffer capacity size, mvhfs_read fs name buffer capacity size m =
    (some (files.read name buffer capacity size), m)

theorem Shows.exposes (h : Shows id d ⟨fs, m⟩ files) : Exposes fs m files := by
  obtain ⟨t, ht, hs⟩ := h.table
  obtain ⟨hd, _, rfl, hsn, _⟩ := h
  refine ⟨ht.list_eq hs hsn.mounted, ?_⟩
  intro n buffer c s
  rw [mvhfs_read_eq hd hsn.room, ht.readOn_eq hs hsn.mounted]

theorem shows_formatted (hd : HasSectors m id d) (hw : d.writable ≠ 0)
    (hs : Sound (m.disk id) d (formatted id)) : Shows id d ⟨formatted id, m⟩ ∅ := by
  refine ⟨hd, hw, rfl, hs, fun _ => none, ?_, stores_empty⟩
  intro i hi
  show usedAt emptyDirectory i = 0
  have hat : entry_at i = i * 64 := rfl
  rw [usedAt, emptyDirectory, hat, Buffer.load32_ofMem _ (by omega)]
  simp [load32, cleared]

theorem Shows.change (h : Shows id d ⟨fs, m⟩ files) (op : Op) :
    (files.exec op = (-1, files) ∧ invoke id fs (.change op) m = (some (.status (-1), fs), m)) ∨
    ((files.exec op).1 = 0 ∧ ∃ row fs',
      invoke id fs (.change op) m =
        (match ending m.plan row.length with
          | .done => some (.status 0, fs')
          | .fail => some (.status (-1), fs)
          | .cut => none, m.play id row) ∧
      fs'.generation = fs.generation + 1 ∧
      (ending m.plan row.length = .done → Shows id d ⟨fs', m.play id row⟩ (files.exec op).2) ∧
      (ending m.plan row.length ≠ .done → Shows id d ⟨fs, m.play id row⟩ files) ∧
      commitsIn id (m.play id row).written =
        commitsIn id m.written + if ending m.plan row.length = .done then 1 else 0) := by
  obtain ⟨hd, hw, rfl, hsn, t, ht, hs⟩ := h
  have hd' : ∀ row, HasSectors (m.play fs.device_id row) fs.device_id d :=
    fun row => ⟨by rw [table_play]; exact hd.get, hd.size⟩
  rcases change_refines hsn ht hs op with ⟨hp, he⟩ | ⟨ws, fs1, t', hp, he, hs', ht'⟩
  · exact Or.inl ⟨he, invoke_refused hd hp⟩
  · obtain ⟨_, _, _, _, f, _, hf1, _⟩ := planOf_some hp
    refine Or.inr ⟨he, ws ++ commitWrites d.sector_count fs1, committed fs1,
      invoke_row _ hd hw hsn hp rfl, by rw [hf1]; rfl, ?_, ?_, ?_⟩
    · intro hen
      have hds : (m.play fs.device_id (ws ++ commitWrites d.sector_count fs1)).disk fs.device_id =
          apply (m.disk fs.device_id) (ws ++ commitWrites d.sector_count fs1) := by
        rw [disk_play, (ending_done_iff _ _).mp hen, List.take_length]
      refine ⟨hd' _, hw, by rw [hf1]; rfl, ?_, t', ?_, hs'⟩
      · rw [hds]
        exact hsn.all hp
      · rw [hds]
        exact ht'
    · intro hen
      rw [ne_eq, ending_done_iff] at hen
      have hlt := Nat.lt_of_le_of_ne (played_le m.plan _) hen
      refine ⟨hd' _, hw, rfl, ?_, t, ?_, hs⟩
      · rw [disk_play]
        exact hsn.part hp hlt
      · rw [disk_play]
        exact ht.congr fun lba hl => hsn.held hp _ (Or.inr (Or.inr hl))
    · rw [written_play, commitsIn_append,
        commitsIn_row hp hsn.slot_le hsn.slots _ (played_le _ _)]
      simp only [ending_done_iff]

theorem Shows.mount (h : Shows id d ⟨fs, m⟩ files) (hg : fs.generation ≠ 0) (mm : Mvhfs) :
    invoke id mm .mount m = (some (.status 0, fs), m) := by
  have hm := h.sound.mountable_eq hg
  rw [h.handle] at hm
  exact invoke_mount h.device h.sound.room mm hm

theorem Shows.change_without_fault (h : Shows id d ⟨fs, m⟩ files) (op : Op) (hp : m.plan = []) :
    ∃ fs' m', invoke id fs (.change op) m = (some (.status (files.exec op).1, fs'), m') ∧
      m'.plan = [] ∧ Shows id d ⟨fs', m'⟩ (files.exec op).2 ∧
      fs'.generation = fs.generation + if (files.exec op).1 = 0 then 1 else 0 := by
  rcases h.change op with ⟨he, hi⟩ | ⟨he, row, fs', hi, hg, hd, _, _⟩
  · grind
  grind [ending_nil, plan_play, planAfter_nil]

theorem Shows.change_wrapped (h : Shows id d ⟨fs, m⟩ files) {op : Op} (he : (files.exec op).1 = 0)
    (hpl : m.plan = []) (hg : fs.generation + 1 = 0) :
    ∃ ws fs1 m', planOf fs op = some (ws, fs1) ∧
      invoke id fs (.change op) m = (some (.status 0, committed fs1), m') ∧ m'.plan = [] ∧
      Shows id d ⟨committed fs1, m'⟩ (files.exec op).2 ∧ (committed fs1).generation = 0 ∧
      Shows id d ⟨fs, m'⟩ files := by
  obtain ⟨hd, hw, rfl, hsn, t, ht, hs⟩ := h
  rcases change_refines hsn ht hs op with ⟨hp, he'⟩ | ⟨ws, fs1, t', hp, _, hs', ht'⟩
  · grind
  · obtain ⟨_, _, _, _, f, _, hf1, _⟩ := planOf_some hp
    have hi := invoke_row fs.device_id hd hw hsn hp rfl
    rw [hpl, ending_nil] at hi
    have hds : (m.play fs.device_id (ws ++ commitWrites d.sector_count fs1)).disk fs.device_id =
        apply (m.disk fs.device_id) (ws ++ commitWrites d.sector_count fs1) := by
      rw [disk_play, hpl, played_nil, List.take_length]
    have hd' : HasSectors (m.play fs.device_id (ws ++ commitWrites d.sector_count fs1))
        fs.device_id d := ⟨by rw [table_play]; exact hd.get, hd.size⟩
    refine ⟨ws, fs1, _, hp, hi, by rw [plan_play, hpl, planAfter_nil],
      ⟨hd', hw, by rw [hf1]; rfl, ?_, t', ?_, hs'⟩, ?_,
      ⟨hd', hw, rfl, ?_, t, ?_, hs⟩⟩
    · rw [hds]
      exact hsn.all hp
    · rw [hds]
      exact ht'
    · rw [hf1]
      exact hg
    · rw [hds]
      exact hsn.all_wrapped hp hg
    · rw [hds]
      exact ht.congr fun lba hl => hsn.live_after hp hl

end

end mvh.mvhfs
