-- Whole runs: a disk is formatted, then calls follow in any order.
import MvhKernel.MvhfsSound

open flat_memory write_list mvh.block mvh.crc

namespace mvh.mvhfs

/-! ## Format -/

def emptyDirectory : Buffer 2048 := Buffer.ofMem 2048 cleared

/-- The row of writes of a format: both directory copies, then the older superblock, then the
newer one. -/
def formatWrites (count : UInt64) : List (Nat × Buffer 512) :=
  (List.range 8).map (fun k => (2 + k, Buffer.ofMem 512 cleared)) ++
    [(1, build_superblock count 0 1 (directoryCrc emptyDirectory)),
      (0, build_superblock count 1 0 (directoryCrc emptyDirectory))]

def formatted (id : UInt32) : Mvhfs :=
  { device_id := id
    superblock_slot := 0
    directory_slot := 0
    generation := 1
    mounted := 1
    directory := emptyDirectory }

theorem zero_crc_eq : (List.range MVHFS_DIRECTORY_SECTORS).foldl
    (fun z _ => crc32_update z (some cleared) MVHFS_SECTOR_SIZE) 0 =
      directoryCrc emptyDirectory := by
  have hsm : directoryCrc emptyDirectory = crc32_update 0 (some cleared) (512 + 512 + 512 + 512) :=
    crc32_congr fun i hi => Buffer.bytes_ofMem _ hi
  have hs : ∀ n, shift cleared n = cleared := fun _ => rfl
  rw [hsm, crc32_update_add, crc32_update_add, crc32_update_add]
  simp only [hs]
  rfl

theorem block_write_status (id : UInt32) (lba : Nat) (b : Mem) (m : Machine) :
    ∀ s, (block_write id lba 1 b m).1 = some s → s = 0 ∨ s = -1 := by
  grind [block_write]

theorem mvhfs_format_eq {m : Machine} {id : UInt32} {d : BlockDevice} (h : HasSectors m id d)
    (hc : MVHFS_MIN_SECTORS ≤ d.sector_count) (hw : d.writable ≠ 0) :
    mvhfs_format id m = writeAll id (formatWrites d.sector_count) m := by
  have hg : ¬ (d.sector_size ≠ 512 ∨ d.sector_count < MVHFS_MIN_SECTORS ∨ d.writable = 0) := by
    rintro (h1 | h1 | h1)
    · exact h1 h.size
    · exact UInt64.not_lt.mpr hc h1
    · exact hw h1
  have hl : mvhfs_format_loop id (List.range (MVHFS_DIRECTORY_SECTORS * 2)) m =
      writeAll id ((List.range 8).map fun k => (2 + k, Buffer.ofMem 512 cleared)) m :=
    writeAll_map h (mvhfs_format_loop id) (fun k => 2 + k) (fun _ => cleared) rfl
      (fun _ _ => rfl) _
  unfold mvhfs_format formatWrites
  rw [Io.bind_some _ (get_device_eq h.get), writeAll_append]
  simp only [if_neg hg]
  rw [zero_crc_eq, Io.bind_apply, Io.bind_apply, hl]
  generalize build_superblock d.sector_count 0 1 (directoryCrc emptyDirectory) = older
  generalize build_superblock d.sector_count 1 0 (directoryCrc emptyDirectory) = newer
  rcases writeAll id _ m with ⟨_ | s, m'⟩
  · rfl
  · by_cases hs : s = 0
    · simp only [hs, ne_eq, not_true_eq_false, if_false, writeAll, Io.bind_apply]
      rcases block_write id 1 1 older.bytes m' with ⟨_ | s, m2⟩
      · rfl
      · by_cases hs : s = 0
        · simp only [hs, not_true_eq_false, if_false]
          have hls := block_write_status id 0 newer.bytes m2
          rcases hb : block_write id 0 1 newer.bytes m2 with ⟨_ | s, m3⟩
          · rw [Io.bind_none _ hb]
          grind [Io.bind_some]
        · simp [hs]
    · simp [hs]

theorem mvhfs_format_device {m m0 : Machine} {id : UInt32} (h : mvhfs_format id m = (some 0, m0)) :
    ∃ d, HasSectors m id d ∧ MVHFS_MIN_SECTORS ≤ d.sector_count ∧ d.writable ≠ 0 := by
  unfold mvhfs_format at h
  rw [Io.bind_apply] at h
  simp only [get_device] at h
  rcases hd : device_info m.table id with _ | d
  · rw [hd] at h
    cases h
  · rw [hd] at h
    simp only at h
    split at h
    · cases h
    · rename_i hg
      simp only [not_or, not_not, UInt64.not_lt] at hg
      exact ⟨d, ⟨device_info_some hd, hg.1⟩, hg.2.1, hg.2.2⟩

theorem formatWrites_in_area (c : UInt64) : ∀ w ∈ formatWrites c, w.1 < 522 := by
  intro w hw
  rcases List.mem_append.mp hw with hw | hw
  · grind
  grind

theorem formatWrites_nodup (c : UInt64) : ((formatWrites c).map Prod.fst).Nodup := by
  have hp : (formatWrites c).map Prod.fst = [2, 3, 4, 5, 6, 7, 8, 9, 1, 0] := rfl
  rw [hp]
  decide

theorem sectorOf_emptyDirectory {k : Nat} (hk : k < 4) :
    sectorOf emptyDirectory k = Buffer.ofMem 512 cleared := by
  apply Buffer.ofMem_congr
  intro i hi
  rw [shift_apply, emptyDirectory, Buffer.bytes_ofMem _ (by omega)]
  rfl

theorem sound_formatted (ds : Nat → Buffer 512) {d : BlockDevice} (id : UInt32)
    (hc : MVHFS_MIN_SECTORS ≤ d.sector_count) :
    Sound (apply ds (formatWrites d.sector_count)) d (formatted id) := by
  have hn := formatWrites_nodup d.sector_count
  have hd : ∀ k < 8, apply ds (formatWrites d.sector_count) (2 + k) =
      Buffer.ofMem 512 cleared := by
    intro k hk
    exact apply_of_mem _ _ hn (List.mem_append_left _
      (List.mem_map.mpr ⟨k, List.mem_range.mpr hk, rfl⟩))
  have hl : apply ds (formatWrites d.sector_count) 1 =
      build_superblock d.sector_count 0 1 (directoryCrc emptyDirectory) :=
    apply_of_mem _ _ hn (List.mem_append_right _ List.mem_cons_self)
  have hnw : apply ds (formatWrites d.sector_count) 0 =
      build_superblock d.sector_count 1 0 (directoryCrc emptyDirectory) :=
    apply_of_mem _ _ hn (List.mem_append_right _ (List.mem_cons_of_mem _ List.mem_cons_self))
  refine ⟨hc, UInt32.zero_le, ?_, ?_, ?_⟩
  · apply candidate_build hc UInt32.zero_le rfl hnw
    intro k hk
    exact (hd k (by omega)).trans (sectorOf_emptyDirectory hk).symm
  · obtain ⟨_, _, hg⟩ := load_rawSuperblock d.sector_count 0 1 (directoryCrc emptyDirectory)
    refine ⟨Buffer.ofMem 512 (rawSuperblock d.sector_count 0 1 (directoryCrc emptyDirectory)),
      ?_, ?_⟩
    · have hs : (formatted id).superblock_slot ^^^ 1 = 1 := by simp [formatted]
      rw [hs]
      grind [validate_build_superblock, superOn]
    simp [hg, formatted]
  · intro lba h2 h10
    obtain ⟨k, rfl⟩ := Nat.exists_eq_add_of_le h2
    rw [hd k (by omega)]
    intro j hj
    rw [Buffer.load32_ofMem _ (by omega)]
    have hz : load32 cleared (j * 64 + 44) = 0 := by simp [load32, cleared]
    rw [hz]
    decide

theorem mvhfs_format_sound {m m0 : Machine} {id : UInt32} (h : mvhfs_format id m = (some 0, m0)) :
    ∃ d, HasSectors m0 id d ∧ d.writable ≠ 0 ∧ Sound (m0.disk id) d (formatted id) := by
  obtain ⟨d, hd, hc, hw⟩ := mvhfs_format_device h
  have hm : 522 ≤ d.sector_count.toNat := hc
  rw [mvhfs_format_eq hd hc hw, writeAll_eq hd hw _ fun w hw' =>
    Nat.lt_of_lt_of_le (formatWrites_in_area _ w hw') hm] at h
  obtain ⟨hr, hm0⟩ := Prod.mk.inj h
  have hdn : ending m.plan (formatWrites d.sector_count).length = .done := by
    cases he : ending m.plan (formatWrites d.sector_count).length
    · rfl
    · rw [he] at hr; cases hr
    · rw [he] at hr; cases hr
  subst hm0
  refine ⟨d, ⟨?_, hd.size⟩, hw, ?_⟩
  · rw [table_play]
    exact hd.get
  grind [disk_play, ending_done_iff, List.take_length, sound_formatted]

/-! ## Calls and events -/

/-- One call on a handle. -/
inductive Call
  | mount
  | change (op : Op)
  | read (name : Option Mem) (buffer : Bool) (capacity : UInt32) (size : Bool)
  | list (capacity : Nat)

/-- What a call gives back to its caller. -/
inductive Reply
  | status (result : Int)
  | read (result : ReadResult)
  | list (count : Nat) (entries : List (List UInt8 × UInt32))
  deriving DecidableEq

def invoke (id : UInt32) (fs : Mvhfs) : Call → Io (Reply × Mvhfs)
  | .mount => do
    let (status, fs) ← mvhfs_mount fs id
    pure (.status status, fs)
  | .change op => do
    let (status, fs) ← exec fs op
    pure (.status status, fs)
  | .read name buffer capacity size => do
    let result ← mvhfs_read fs name buffer capacity size
    pure (.read result, fs)
  | .list capacity =>
    let (count, entries) := mvhfs_list fs capacity
    pure (.list count entries, fs)

/-- The handle and the machine. -/
structure World where
  fs : Mvhfs
  machine : Machine

/-- A call, what comes of its writes, and the memory in which a machine that has lost its power
mounts the disk again. -/
structure Event where
  call : Call
  plan : List Outcome
  memory : Mvhfs

/-- The reply to a call, or the reply to the mount after a power cut. -/
inductive Answer
  | replied (reply : Reply)
  | cut (mount : Option Reply)
  deriving DecidableEq

def World.restart (id : UInt32) (memory : Mvhfs) (m : Machine) : Answer × World :=
  match invoke id memory .mount m with
  | (some (reply, fs), m) => (.cut (some reply), ⟨fs, m⟩)
  | (none, m) => (.cut none, ⟨memory, m⟩)

/-- A cut that is still left in the plan when the call is through comes right after the call. -/
def World.event (id : UInt32) (w : World) (e : Event) : Answer × World :=
  match invoke id w.fs e.call (w.machine.withPlan e.plan) with
  | (some (reply, fs), m) =>
    if Outcome.cut ∈ m.plan then World.restart id e.memory m else (.replied reply, ⟨fs, m⟩)
  | (none, m) => World.restart id e.memory m

def World.run (id : UInt32) (w : World) : List Event → List Answer × World
  | [] => ([], w)
  | e :: es =>
    let (answer, w) := w.event id e
    let (answers, w) := w.run id es
    (answer :: answers, w)

theorem World.run_append (id : UInt32) (w : World) (es fs : List Event) :
    w.run id (es ++ fs) =
      ((w.run id es).1 ++ ((w.run id es).2.run id fs).1, ((w.run id es).2.run id fs).2) := by
  induction es generalizing w with
  | nil => rfl
  | cons e es ih => simp [List.cons_append, World.run, ih]

/-! ## What each kind of call does -/

section
variable {id : UInt32} {d : BlockDevice} {fs : Mvhfs} {m : Machine}

theorem invoke_mount (h : HasSectors m id d) (hc : MVHFS_MIN_SECTORS ≤ d.sector_count)
    (fs : Mvhfs) {fs' : Mvhfs} (hm : mountable (m.disk id) d id = some fs') :
    invoke id fs .mount m = (some (.status 0, fs'), m) := by
  obtain ⟨failed, _, hmn⟩ := mvhfs_mount_eq h hc fs
  rw [hm, Option.elim_some] at hmn
  rw [invoke, Io.bind_some _ hmn]
  rfl

theorem invoke_read (h : HasSectors m fs.device_id d) (hc : MVHFS_MIN_SECTORS ≤ d.sector_count)
    (n : Option Mem) (buffer : Bool) (c : UInt32) (s : Bool) :
    invoke id fs (.read n buffer c s) m =
      (some (.read (readOn (m.disk fs.device_id) fs n buffer c s), fs), m) := by
  rw [invoke, Io.bind_some _ (mvhfs_read_eq h hc n buffer c s)]
  rfl

theorem invoke_list (c : Nat) : invoke id fs (.list c) m =
    (some (.list (mvhfs_list fs c).1 (mvhfs_list fs c).2, fs), m) := rfl

theorem invoke_change {m' : Machine} {op : Op} {r : Option (Int × Mvhfs)}
    (h : exec fs op m = (r, m')) :
    invoke id fs (.change op) m = (r.map fun (s, fs) => (.status s, fs), m') := by
  rw [invoke, Io.bind_apply, h]
  rcases r with _ | ⟨s, fs'⟩ <;> rfl

theorem invoke_refused (h : HasSectors m fs.device_id d) {op : Op} (hp : planOf fs op = none) :
    invoke id fs (.change op) m = (some (.status (-1), fs), m) := by
  have he := exec_eq h op
  rw [hp] at he
  rw [invoke_change he]
  rfl

theorem invoke_row (id : UInt32) (h : HasSectors m fs.device_id d) (hw : d.writable ≠ 0)
    (hs : Sound (m.disk fs.device_id) d fs) {op : Op} {ws : List (Nat × Buffer 512)} {fs1 : Mvhfs}
    (hp : planOf fs op = some (ws, fs1)) {row : List (Nat × Buffer 512)}
    (hr : row = ws ++ commitWrites d.sector_count fs1) :
    invoke id fs (.change op) m =
      (match ending m.plan row.length with
        | .done => some (.status 0, committed fs1)
        | .fail => some (.status (-1), fs)
        | .cut => none, m.play fs.device_id row) := by
  have hm : 522 ≤ d.sector_count.toNat := hs.room
  have he := exec_eq h op
  rw [hp] at he
  simp only at he
  rw [← hr, perform_eq h hw row (by
    intro v hv
    rw [hr] at hv
    exact Nat.lt_of_lt_of_le (row_in_area hp hs.slot_le hs.slots v hv) hm)] at he
  rw [invoke_change he]
  cases ending m.plan row.length <;> rfl

def refusal : Call → Reply
  | .mount | .change _ => .status (-1)
  | .read _ _ _ _ => .read ⟨-1, none, []⟩
  | .list _ => .list 0 []

theorem exec_unmounted (h : fs.mounted = 0) (op : Op) (m : Machine) :
    exec fs op m = (some (-1, fs), m) := by
  rcases op with n | ⟨n, dt, s⟩ | n
  · rcases n with _ | t
    · rfl
    · simp [exec, mvhfs_create, h]
  · rcases n with _ | t
    · rfl
    · simp [exec, mvhfs_write, h]
  · rcases n with _ | t
    · rfl
    · simp [exec, mvhfs_remove, h]

theorem invoke_unmounted (h : fs.mounted = 0) {c : Call} (hc : c ≠ .mount) (m : Machine) :
    invoke id fs c m = (some (refusal c, fs), m) := by
  rcases c with _ | op | ⟨n, buffer, cp, s⟩ | cp
  · exact absurd rfl hc
  · rw [invoke_change (exec_unmounted h op m)]
    rfl
  · have hr : mvhfs_read fs n buffer cp s m = (some ⟨-1, none, []⟩, m) := by
      rcases n with _ | t
      · rfl
      · simp [mvhfs_read, h]
    rw [invoke, Io.bind_some _ hr]
    rfl
  · rw [invoke_list]
    simp [mvhfs_list, h, refusal]

theorem restart_eq (h : HasSectors m id d) (hc : MVHFS_MIN_SECTORS ≤ d.sector_count) (mm : Mvhfs)
    {fs' : Mvhfs} (hm : mountable (m.disk id) d id = some fs') :
    World.restart id mm m = (.cut (some (.status 0)), ⟨fs', m⟩) := by
  rw [World.restart, invoke_mount h hc mm hm]

/-! ## The invariant over a run -/

/-- The disk is sound for some handle, and the handle of the caller is that one or it is not
mounted. -/
structure SoundWorld (id : UInt32) (d : BlockDevice) (w : World) : Prop where
  device : HasSectors w.machine id d
  writable : d.writable ≠ 0
  sound : ∃ fs, fs.device_id = id ∧ Sound (w.machine.disk id) d fs ∧ (w.fs = fs ∨ w.fs.mounted = 0)

variable {w : World}

theorem SoundWorld.of_mounted (h : SoundWorld id d w) (hm : w.fs.mounted ≠ 0) :
    w.fs.device_id = id ∧ Sound (w.machine.disk id) d w.fs := by
  obtain ⟨fs, hid, hs, hfs⟩ := h.sound
  grind

theorem SoundWorld.intro (h : SoundWorld id d w) (ht : m.table = w.machine.table)
    (hid : fs.device_id = id) (hs : Sound (m.disk id) d fs) : SoundWorld id d ⟨fs, m⟩ :=
  ⟨⟨by rw [ht]; exact h.device.get, h.device.size⟩, h.writable, fs, hid, hs, Or.inl rfl⟩

theorem SoundWorld.withPlan (h : SoundWorld id d w) (p : List Outcome) :
    SoundWorld id d ⟨w.fs, w.machine.withPlan p⟩ :=
  ⟨h.device.withPlan p, h.writable, h.sound⟩

/-- A call keeps the invariant, and so does a call that loses its power. -/
def KeepsSound (id : UInt32) (d : BlockDevice) (w : World) (c : Call) : Prop :=
  match invoke id w.fs c w.machine with
  | (some (_, fs), m) => SoundWorld id d ⟨fs, m⟩ ∧ w.machine.written <+: m.written
  | (none, m) => SoundWorld id d ⟨w.fs, m⟩ ∧ w.machine.written <+: m.written

theorem SoundWorld.change (h : SoundWorld id d w) (hm : w.fs.mounted ≠ 0) (op : Op) :
    KeepsSound id d w (.change op) := by
  obtain ⟨hid, hs⟩ := h.of_mounted hm
  subst hid
  rw [KeepsSound]
  rcases hp : planOf w.fs op with _ | ⟨ws, fs1⟩
  · rw [invoke_refused h.device hp]
    exact ⟨h, List.prefix_rfl⟩
  · obtain ⟨_, _, _, _, _, _, hf1, _⟩ := planOf_some hp
    generalize hr : ws ++ commitWrites d.sector_count fs1 = row
    have hpr : played w.machine.plan row.length ≠ row.length →
        Sound ((w.machine.play w.fs.device_id row).disk w.fs.device_id) d w.fs := by
      intro hne
      have hlt := Nat.lt_of_le_of_ne (played_le w.machine.plan row.length) hne
      rw [disk_play]
      subst hr
      exact hs.part hp hlt
    have hl : w.machine.written <+: (w.machine.play w.fs.device_id row).written :=
      ⟨_, (written_play _ _ _).symm⟩
    rw [invoke_row _ h.device h.writable hs hp hr.symm]
    rcases he : ending w.machine.plan row.length
    · refine ⟨h.intro (by simp) (by rw [hf1]; rfl) ?_, hl⟩
      rw [disk_play, (ending_done_iff _ _).mp he, List.take_length, ← hr]
      exact hs.all hp
    · refine ⟨h.intro (by simp) rfl (hpr ?_), hl⟩
      rw [ne_eq, ← ending_done_iff, he]
      decide
    · refine ⟨h.intro (by simp) rfl (hpr ?_), hl⟩
      rw [ne_eq, ← ending_done_iff, he]
      decide

theorem SoundWorld.invoke (h : SoundWorld id d w) (c : Call) : KeepsSound id d w c := by
  by_cases hmn : c = .mount
  · subst hmn
    obtain ⟨fs, rfl, hs, _⟩ := h.sound
    obtain ⟨fs', hm, hid, hs'⟩ := hs.mountable_some
    rw [KeepsSound, invoke_mount h.device hs.room w.fs hm]
    exact ⟨h.intro rfl hid hs', List.prefix_rfl⟩
  · by_cases hm : w.fs.mounted = 0
    · rw [KeepsSound, invoke_unmounted hm hmn]
      exact ⟨h, List.prefix_rfl⟩
    · obtain ⟨hid, hs⟩ := h.of_mounted hm
      subst hid
      rcases c with _ | op | ⟨n, buffer, cp, s⟩ | cp
      · exact absurd rfl hmn
      · exact h.change hm op
      · rw [KeepsSound, invoke_read h.device hs.room]
        exact ⟨h, List.prefix_rfl⟩
      · rw [KeepsSound, invoke_list]
        exact ⟨h, List.prefix_rfl⟩

theorem SoundWorld.restart (h : SoundWorld id d ⟨fs, m⟩) (mm : Mvhfs) :
    SoundWorld id d (World.restart id mm m).2 ∧
      (World.restart id mm m).2.machine = m := by
  obtain ⟨fs0, rfl, hs, _⟩ := h.sound
  obtain ⟨fs', hm, hid, hs'⟩ := hs.mountable_some
  rw [restart_eq h.device hs.room mm hm]
  exact ⟨h.intro rfl hid hs', rfl⟩

theorem SoundWorld.event (h : SoundWorld id d w) (e : Event) :
    SoundWorld id d (w.event id e).2 ∧ w.machine.written <+: (w.event id e).2.machine.written := by
  have hk := (h.withPlan e.plan).invoke e.call
  unfold KeepsSound at hk
  unfold World.event
  rcases hi : mvhfs.invoke id w.fs e.call (w.machine.withPlan e.plan) with ⟨_ | ⟨r, fs⟩, m⟩
  · rw [hi] at hk
    obtain ⟨hs, hm⟩ := hk.1.restart e.memory
    exact ⟨hs, by rw [hm]; exact hk.2⟩
  · rw [hi] at hk
    simp only
    split
    · obtain ⟨hs, hm⟩ := hk.1.restart e.memory
      exact ⟨hs, by rw [hm]; exact hk.2⟩
    · exact hk

theorem SoundWorld.run (h : SoundWorld id d w) (es : List Event) : SoundWorld id d (w.run id es).2 := by
  induction es generalizing w with
  | nil => exact h
  | cons e es ih => exact ih (h.event e).1

theorem SoundWorld.start {m0 : Machine} (h : mvhfs_format id m = (some 0, m0)) {mm : Mvhfs}
    (hm : mm.mounted = 0) : ∃ d, SoundWorld id d ⟨mm, m0⟩ := by
  obtain ⟨d, hd, hw, hs⟩ := mvhfs_format_sound h
  exact ⟨d, hd, hw, formatted id, rfl, hs, Or.inr hm⟩

theorem exec_without_fault {fs1 : Mvhfs} {op : Op} {ws : List (Nat × Buffer 512)}
    (h : HasSectors m fs.device_id d) (hw : d.writable ≠ 0) (hs : Sound (m.disk fs.device_id) d fs)
    (hp : planOf fs op = some (ws, fs1)) (hpl : m.plan = []) :
    exec fs op m = (some (0, committed fs1),
      m.play fs.device_id (ws ++ commitWrites d.sector_count fs1)) := by
  have hm : 522 ≤ d.sector_count.toNat := hs.room
  have he := exec_eq h op
  rw [hp] at he
  simp only at he
  rw [perform_eq h hw _ fun v hv =>
    Nat.lt_of_lt_of_le (row_in_area hp hs.slot_le hs.slots v hv) hm, hpl, ending_nil] at he
  exact he

theorem mvhfs_format_without_fault (h : HasSectors m id d)
    (hc : MVHFS_MIN_SECTORS ≤ d.sector_count) (hw : d.writable ≠ 0) (hp : m.plan = []) :
    mvhfs_format id m = (some 0, m.play id (formatWrites d.sector_count)) := by
  have hm : 522 ≤ d.sector_count.toNat := hc
  rw [mvhfs_format_eq h hc hw, writeAll_eq h hw _ fun w hw' =>
    Nat.lt_of_lt_of_le (formatWrites_in_area _ w hw') hm, hp, ending_nil]
  rfl

end

/-! ## A small disk

One writable device with just enough sectors, formatted and mounted. -/

def smallDevice : BlockDevice := { id := 0, sector_size := 512, sector_count := 522, writable := 1 }

def smallTable : BlockTable where
  devices := [smallDevice]
  ids := by
    intro i d h
    obtain ⟨hi, rfl⟩ := List.getElem?_eq_some_iff.mp h
    rw [List.length_singleton] at hi
    obtain rfl : i = 0 := by omega
    rfl
  room := by decide

def smallMachine : Machine :=
  { table := smallTable, media := fun _ => cleared, plan := [], written := [] }

def blankHandle : Mvhfs := { formatted 0 with mounted := 0 }

theorem small_disk : ∃ m0, mvhfs_format 0 smallMachine = (some 0, m0) ∧
    HasSectors m0 0 smallDevice ∧ Sound (m0.disk 0) smallDevice (formatted 0) := by
  have hdv : HasSectors smallMachine 0 smallDevice := ⟨rfl, rfl⟩
  have hf := mvhfs_format_without_fault hdv (by decide) (by decide) rfl
  obtain ⟨d, hd, _, hs⟩ := mvhfs_format_sound hf
  have hd' : d = smallDevice := by
    have hg := hd.get
    rw [table_play] at hg
    exact (Option.some.inj hg).symm
  grind

theorem mount_formatted {id : UInt32} {d : BlockDevice} {m0 : Machine} (h : HasSectors m0 id d)
    (hs : Sound (m0.disk id) d (formatted id)) (mm f : Mvhfs) :
    World.event id ⟨mm, m0⟩ ⟨.mount, [], f⟩ =
      (.replied (.status 0), ⟨formatted id, m0.withPlan []⟩) := by
  have hm := hs.mountable_eq (by simp [formatted])
  rw [World.event, invoke_mount (h.withPlan []) hs.room mm hm]
  rfl

def nameA : Mem := fun i => if i = 0 then 0x61 else 0

theorem small_create : planOf (formatted 0) (.create (some nameA)) =
    some ([], (formatted 0).edit (createEdit nameA (entry_at 0))) := by
  have hg : ¬ ((formatted 0).mounted = 0 ∨ valid_name (some nameA) = false ∨
      (find_entry (formatted 0) nameA).isSome) := by decide +kernel
  have hf : find_free (formatted 0) = some 0 := by decide +kernel
  rw [planOf, if_neg hg, hf]
  rfl

end mvh.mvhfs
