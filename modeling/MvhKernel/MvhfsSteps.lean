-- What one call of the filesystem writes.
import MvhKernel.Mvhfs

open flat_memory write_list mvh.block mvh.crc

namespace mvh.mvhfs

/-! ## The device -/

theorem device_info_eq {t : BlockTable} {id : UInt32} {d : BlockDevice}
    (h : block_get t id = some d) : device_info t id = some d := by
  have hid := block_get_id h
  unfold device_info
  rw [List.take_of_length_le t.room, List.find?_eq_some_iff_getElem]
  obtain ⟨hlt, hg⟩ := List.getElem?_eq_some_iff.mp h
  refine ⟨by simp [hid], id.toNat, hlt, hg, ?_⟩
  intro j hj
  have hj' := t.ids j _ (List.getElem?_eq_getElem (by omega))
  grind

theorem device_info_some {t : BlockTable} {id : UInt32} {d : BlockDevice}
    (h : device_info t id = some d) : block_get t id = some d := by
  unfold device_info at h
  rw [List.take_of_length_le t.room] at h
  have hid : d.id = id := by grind
  obtain ⟨i, hi, hg⟩ := List.mem_iff_getElem.mp (List.mem_of_find?_eq_some h)
  have hg' : t.devices[i]? = some d := by grind
  have hp := t.ids i d hg'
  grind [block_get]

theorem get_device_eq {m : Machine} {id : UInt32} {d : BlockDevice}
    (h : block_get m.table id = some d) : get_device id m = (some (some d), m) := by
  rw [get_device, device_info_eq h]

theorem xor_one_cases {s : UInt32} (h : s ≤ 1) :
    (s = 0 ∧ s ^^^ 1 = 1) ∨ (s = 1 ∧ s ^^^ 1 = 0) := by
  have h2 : s = 0 ∨ s = 1 := by grind
  rcases h2 with rfl | rfl
  · exact Or.inl ⟨rfl, rfl⟩
  · exact Or.inr ⟨rfl, rfl⟩

theorem xor_one_le {s : UInt32} (h : s ≤ 1) : s ^^^ 1 ≤ 1 := by
  rcases xor_one_cases h with ⟨_, h1⟩ | ⟨_, h1⟩ <;> rw [h1] <;> decide

theorem xor_one_xor_one (slot : UInt32) : slot ^^^ 1 ^^^ 1 = slot := by
  rw [UInt32.xor_assoc, UInt32.xor_self, UInt32.xor_zero]

/-! ## The row of writes of a commit -/

def sectorOf (directory : Buffer 2048) (k : Nat) : Buffer 512 :=
  Buffer.ofMem 512 (shift directory.bytes (k * 512))

def directoryWrites (directory : Buffer 2048) (slot : UInt32) : List (Nat × Buffer 512) :=
  (List.range 4).map fun k => (directory_lba slot + k, sectorOf directory k)

def directoryCrc (directory : Buffer 2048) : UInt32 := crc32 (some directory.bytes) 2048

def nextSuperblock (count : UInt64) (fs : Mvhfs) : Buffer 512 :=
  build_superblock count (fs.generation + 1) (fs.directory_slot ^^^ 1) (directoryCrc fs.directory)

def commitWrites (count : UInt64) (fs : Mvhfs) : List (Nat × Buffer 512) :=
  directoryWrites fs.directory (fs.directory_slot ^^^ 1) ++
    [((fs.superblock_slot ^^^ 1).toNat, nextSuperblock count fs)]

def committed (fs : Mvhfs) : Mvhfs :=
  { fs with
    directory_slot := fs.directory_slot ^^^ 1
    superblock_slot := fs.superblock_slot ^^^ 1
    generation := fs.generation + 1 }

/-- A call that does a row of writes: it gives 0 and the handle `fs'` when all
are done, and -1 and the handle `fs` when one fails. -/
def perform (id : UInt32) (ws : List (Nat × Buffer 512)) (fs fs' : Mvhfs) : Io (Int × Mvhfs) := do
  let status ← writeAll id ws
  if status ≠ 0 then pure (-1, fs) else pure (0, fs')

theorem perform_eq {m : Machine} {id : UInt32} {d : BlockDevice} (h : HasSectors m id d)
    (hw : d.writable ≠ 0) (ws : List (Nat × Buffer 512))
    (hl : ∀ w ∈ ws, w.1 < d.sector_count.toNat) (fs fs' : Mvhfs) :
    perform id ws fs fs' m =
      (match ending m.plan ws.length with
        | .done => some (0, fs')
        | .fail => some (-1, fs)
        | .cut => none, m.play id ws) := by
  unfold perform
  rw [Io.bind_apply, writeAll_eq h hw ws hl]
  cases ending m.plan ws.length <;> rfl

theorem block_write_ofMem {m : Machine} {id : UInt32} {d : BlockDevice} (h : HasSectors m id d)
    (lba : Nat) (b : Mem) :
    block_write id lba 1 (Buffer.ofMem 512 b).bytes m = block_write id lba 1 b m := by
  have hc : ∀ a, copy (m.media id) (a * 512) (Buffer.ofMem 512 b).bytes 0 512 =
      copy (m.media id) (a * 512) b 0 512 := by grind [copy, Buffer.bytes_ofMem]
  have hw : m.write id lba 1 512 (Buffer.ofMem 512 b).bytes = m.write id lba 1 512 b := by
    simp [Machine.write, hc]
  unfold block_write
  have hs : (512 : UInt32).toNat = 512 := rfl
  simp only [h.get, h.size, hs, hw]

theorem block_write_table (id : UInt32) (lba : Nat) (b : Mem) (m : Machine) :
    (block_write id lba 1 b m).2.table = m.table := by
  unfold block_write
  split
  · rfl
  · split
    · rfl
    · split <;> rfl

theorem writeAll_map {m : Machine} {id : UInt32} {d : BlockDevice} (h : HasSectors m id d)
    (loop : List Nat → Io Int) (lba : Nat → Nat) (b : Nat → Mem)
    (hn : loop [] = pure 0)
    (hc : ∀ k ks, loop (k :: ks) = (do
      let s ← block_write id (lba k) 1 (b k)
      if s ≠ 0 then pure (-1) else loop ks)) (ks : List Nat) :
    loop ks m = writeAll id (ks.map fun k => (lba k, Buffer.ofMem 512 (b k))) m := by
  induction ks generalizing m with
  | nil => rw [hn]; rfl
  | cons k ks ih =>
    rw [hc, List.map_cons, writeAll, Io.bind_apply, Io.bind_apply, block_write_ofMem h]
    have ht := block_write_table id (lba k) (b k) m
    rcases hb : block_write id (lba k) 1 (b k) m with ⟨_ | s, m'⟩
    · rfl
    · rw [hb] at ht
      have h' : HasSectors m' id d := ⟨by rw [ht]; exact h.get, h.size⟩
      grind

theorem commit_directory_loop_eq {m : Machine} {fs : Mvhfs} {d : BlockDevice}
    (h : HasSectors m fs.device_id d) (s : UInt32) :
    commit_directory_loop fs s (List.range MVHFS_DIRECTORY_SECTORS) m =
      writeAll fs.device_id (directoryWrites fs.directory s) m :=
  writeAll_map h (commit_directory_loop fs s) (fun k => directory_lba s + k)
    (fun k => shift fs.directory.bytes (k * 512)) rfl (fun _ _ => rfl) _

theorem writeAll_singleton (id : UInt32) (w : Nat × Buffer 512) (m : Machine) :
    writeAll id [w] m = match block_write id w.1 1 w.2.bytes m with
      | (some s, m') => (some (if s ≠ 0 then -1 else 0), m')
      | (none, m') => (none, m') := by
  unfold writeAll
  rw [Io.bind_apply]
  rcases block_write id w.1 1 w.2.bytes m with ⟨_ | s, m'⟩
  · rfl
  · by_cases hs : s = 0 <;> simp [hs, writeAll]

theorem writeAll_table (id : UInt32) (ws : List (Nat × Buffer 512)) (m : Machine) :
    (writeAll id ws m).2.table = m.table := by
  induction ws generalizing m with
  | nil => rfl
  | cons w ws ih =>
    rw [writeAll, Io.bind_apply]
    grind [block_write_table]

theorem commit_directory_eq {m : Machine} {fs : Mvhfs} {d : BlockDevice}
    (h : HasSectors m fs.device_id d) :
    commit_directory fs m =
      perform fs.device_id (commitWrites d.sector_count fs) fs (committed fs) m := by
  unfold commit_directory perform commitWrites
  rw [writeAll_append]
  simp only [Io.bind_apply]
  rw [get_device_eq h.get]
  simp only [Io.bind_apply]
  rw [commit_directory_loop_eq h]
  rcases writeAll fs.device_id (directoryWrites fs.directory (fs.directory_slot ^^^ 1)) m with
    ⟨_ | status, m'⟩
  · rfl
  grind [Io.bind_apply, writeAll_singleton, nextSuperblock, directoryCrc, MVHFS_DIRECTORY_BYTES, committed]

/-! ## The calls that change files -/

/-- A call of `mvhfs_create`, `mvhfs_write` or `mvhfs_remove`. -/
inductive Op
  | create (name : Option Mem)
  | write (name data : Option Mem) (size : UInt32)
  | remove (name : Option Mem)

def exec (fs : Mvhfs) : Op → Io (Int × Mvhfs)
  | .create name => mvhfs_create fs name
  | .write name data size => mvhfs_write fs name data size
  | .remove name => mvhfs_remove fs name

def createEdit (text : Mem) (entry : Nat) (directory : Mem) : Mem :=
  let directory := fill directory entry MVHFS_ENTRY_SIZE 0
  let directory := copy_name_loop text entry MVHFS_NAME_MAX 0 directory
  let directory := store32 directory (entry + 32) 1
  let directory := store32 directory (entry + 36) 0
  let directory := store32 directory (entry + 40) 0
  store32 directory (entry + 44) 0

def writeEdit (entry : Nat) (size crc slot : UInt32) (directory : Mem) : Mem :=
  let directory := store32 directory (entry + 36) size
  let directory := store32 directory (entry + 40) crc
  store32 directory (entry + 44) slot

def removeEdit (entry : Nat) (directory : Mem) : Mem := fill directory entry MVHFS_ENTRY_SIZE 0

/-- Sector `k` of a copy of `size` bytes of data. -/
def dataSector (input : Mem) (size k : Nat) : Buffer 512 :=
  Buffer.ofMem 512 fun i => if k * 512 + i < size then input (k * 512 + i) else 0

def dataWrites (file : Nat) (slot : UInt32) (input : Mem) (size : Nat) :
    List (Nat × Buffer 512) :=
  (List.range 8).map fun k => (data_lba file slot + k, dataSector input size k)

/-- The file of a call, when the call is not turned away for its handle or its name. -/
def fileOf (fs : Mvhfs) (text : Mem) : Option Nat :=
  if fs.mounted = 0 ∨ valid_name (some text) = false then none else find_entry fs text

/-- The data writes of a call and the handle that it then commits, or `none`
when the call is turned away. -/
def planOf (fs : Mvhfs) : Op → Option (List (Nat × Buffer 512) × Mvhfs)
  | .create none | .write none _ _ | .remove none => none
  | .create (some text) =>
    if fs.mounted = 0 ∨ valid_name (some text) = false ∨ (find_entry fs text).isSome then none
    else (find_free fs).map fun slot => ([], fs.edit (createEdit text (entry_at slot)))
  | .write (some text) data size =>
    if size.toNat > MVHFS_FILE_MAX ∨ (data.isNone ∧ size ≠ 0) then none
    else (fileOf fs text).map fun file =>
      let new_slot := load32 fs.directory.bytes (entry_at file + 44) ^^^ 1
      (dataWrites file new_slot (data.getD cleared) size.toNat,
        fs.edit (writeEdit (entry_at file) size (crc32 data size.toNat) new_slot))
  | .remove (some text) =>
    (fileOf fs text).map fun file => ([], fs.edit (removeEdit (entry_at file)))

theorem planOf_cases {fs fs1 : Mvhfs} {op : Op} {ws : List (Nat × Buffer 512)}
    (h : planOf fs op = some (ws, fs1)) :
    (∃ t sl, op = .create (some t) ∧ fs.mounted ≠ 0 ∧ find_free fs = some sl ∧ ws = [] ∧
      fs1 = fs.edit (createEdit t (entry_at sl))) ∨
    (∃ t d s file n, op = .write (some t) d s ∧ fileOf fs t = some file ∧
      n = load32 fs.directory.bytes (entry_at file + 44) ^^^ 1 ∧
      ws = dataWrites file n (d.getD cleared) s.toNat ∧
      fs1 = fs.edit (writeEdit (entry_at file) s (crc32 d s.toNat) n)) ∨
    (∃ t file, op = .remove (some t) ∧ fileOf fs t = some file ∧ ws = [] ∧
      fs1 = fs.edit (removeEdit (entry_at file))) := by
  cases op with
  | create nm =>
    rcases nm with _ | t
    · cases h
    simp only [planOf] at h
    split at h
    · cases h
    rename_i hg
    obtain ⟨sl, hs, heq⟩ := Option.map_eq_some_iff.mp h
    grind
  | write nm d s =>
    rcases nm with _ | t
    · cases h
    simp only [planOf] at h
    split at h
    · cases h
    obtain ⟨file, hf, heq⟩ := Option.map_eq_some_iff.mp h
    grind
  | remove nm =>
    rcases nm with _ | t
    · cases h
    simp only [planOf] at h
    obtain ⟨file, hf, heq⟩ := Option.map_eq_some_iff.mp h
    grind

def EditsEntry (entry : Nat) (f : Mem → Mem) : Prop :=
  ∀ m x, x < entry ∨ entry + 64 ≤ x → f m x = m x

theorem copy_name_loop_outside (n : Mem) (e f index : Nat) (m : Mem) {x : Nat}
    (h : x < e + index ∨ e + index + f ≤ x) :
    copy_name_loop n e f index m x = m x := by
  induction f generalizing index m with
  | zero => rfl
  | succ f ih =>
    unfold copy_name_loop
    grind

theorem createEdit_outside (t : Mem) (e : Nat) : EditsEntry e (createEdit t e) := by
  intro m x hx
  unfold createEdit
  grind [MVHFS_ENTRY_SIZE, MVHFS_NAME_MAX, store32_outside, copy_name_loop_outside, fill_outside]

theorem writeEdit_outside (e : Nat) (s crc sl : UInt32) :
    EditsEntry e (writeEdit e s crc sl) := by
  intro m x hx
  unfold writeEdit
  grind

theorem removeEdit_outside (e : Nat) : EditsEntry e (removeEdit e) := by
  intro m x hx
  unfold removeEdit
  grind [fill_outside, MVHFS_ENTRY_SIZE]

theorem edit_restore (fs : Mvhfs) {e : Nat} {f : Mem → Mem} (hf : EditsEntry e f) :
    (fs.edit f).edit (fun d =>
      copy d e (shift fs.directory.bytes e) 0 MVHFS_ENTRY_SIZE) = fs := by
  have hd : Buffer.ofMem 2048 (copy (Buffer.ofMem 2048 (f fs.directory.bytes)).bytes e
      (shift fs.directory.bytes e) 0 MVHFS_ENTRY_SIZE) = fs.directory := by
    apply Buffer.ext_bytes
    intro i hi
    rw [Buffer.bytes_ofMem _ hi]
    by_cases hin : e ≤ i ∧ i < e + 64
    · grind [copy_inside, shift_apply, MVHFS_ENTRY_SIZE]
    · rw [copy_outside _ _ (by simp only [MVHFS_ENTRY_SIZE]; omega), Buffer.bytes_ofMem _ hi,
        hf _ _ (by omega)]
  cases fs
  grind [Mvhfs.edit, Mvhfs.mk.injEq]

theorem commit_or_restore {m : Machine} {fs : Mvhfs} {d : BlockDevice}
    (h : HasSectors m fs.device_id d) {e : Nat} {f : Mem → Mem} (hf : EditsEntry e f) :
    (do
      let (s, fs1) ← commit_directory (fs.edit f)
      if s ≠ 0 then
        pure (-1, fs1.edit fun dr =>
          copy dr e (shift fs.directory.bytes e) 0 MVHFS_ENTRY_SIZE)
      else pure (0, fs1) : Io (Int × Mvhfs)) m =
      perform fs.device_id (commitWrites d.sector_count (fs.edit f)) fs (committed (fs.edit f)) m := by
  have h' : HasSectors m (fs.edit f).device_id d := h
  rw [Io.bind_apply, commit_directory_eq h']
  unfold perform
  simp only [Io.bind_apply]
  have hid : (fs.edit f).device_id = fs.device_id := rfl
  rw [hid]
  rcases writeAll fs.device_id (commitWrites d.sector_count (fs.edit f)) m with ⟨_ | s, m'⟩
  · rfl
  grind [edit_restore]

theorem mvhfs_write_loop_eq {m : Machine} {id : UInt32} {d : BlockDevice} (h : HasSectors m id d)
    (lba : Nat) (ip : Mem) (size left k : Nat) :
    mvhfs_write_loop id lba ip size left k (min (k * 512) size) m =
      writeAll id ((List.range' k left).map fun k => (lba + k, dataSector ip size k)) m := by
  induction left generalizing m k with
  | zero => rfl
  | succ left ih =>
    have hc : (if size - min (k * 512) size > MVHFS_SECTOR_SIZE then MVHFS_SECTOR_SIZE
        else size - min (k * 512) size) = min 512 (size - k * 512) := by grind [MVHFS_SECTOR_SIZE]
    have hs : Buffer.ofMem 512 (copy cleared 0 ip (min (k * 512) size)
        (min 512 (size - k * 512))) = dataSector ip size k := by
      apply Buffer.ofMem_congr
      intro i hi
      by_cases hin : k * 512 + i < size
      · grind
      · rw [copy_outside _ _ (by omega), if_neg hin]
        rfl
    have ho : min (k * 512) size + min 512 (size - k * 512) = min ((k + 1) * 512) size := by
      omega
    rw [mvhfs_write_loop, List.range'_succ, List.map_cons, writeAll, Io.bind_apply, Io.bind_apply]
    simp only [hc, ← hs, ho]
    rw [block_write_ofMem h]
    have ht := block_write_table id (lba + k) (copy cleared 0 ip (min (k * 512) size)
      (min 512 (size - k * 512))) m
    rcases hb : block_write id (lba + k) 1 _ m with ⟨_ | s, m'⟩
    · rfl
    · rw [hb] at ht
      have h' : HasSectors m' id d := ⟨by rw [ht]; exact h.get, h.size⟩
      grind

theorem exec_eq {m : Machine} {fs : Mvhfs} {d : BlockDevice} (h : HasSectors m fs.device_id d)
    (op : Op) :
    exec fs op m = match planOf fs op with
      | none => (some (-1, fs), m)
      | some (ws, fs1) =>
        perform fs.device_id (ws ++ commitWrites d.sector_count fs1) fs (committed fs1) m := by
  cases op with
  | create n =>
    rcases n with _ | t
    · rfl
    · simp only [exec, mvhfs_create, planOf]
      split
      · rfl
      · rcases find_free fs with _ | sl
        · rfl
        · exact commit_or_restore h (createEdit_outside t (entry_at sl))
  | write n dt s =>
    rcases n with _ | t
    · rfl
    · simp only [exec, mvhfs_write, planOf, fileOf]
      by_cases hsz : s.toNat > MVHFS_FILE_MAX ∨ (dt.isNone ∧ s ≠ 0)
      · grind
      · by_cases hg : fs.mounted = 0 ∨ valid_name (some t) = false
        · grind
        · rw [if_neg (by tauto), if_neg hsz, if_neg hg]
          rcases find_entry fs t with _ | file
          · rfl
          · simp only [Option.map_some]
            rw [Io.bind_apply]
            have hl := mvhfs_write_loop_eq h
              (data_lba file (load32 fs.directory.bytes (entry_at file + 44) ^^^ 1))
              (dt.getD cleared) s.toNat MVHFS_SECTORS_PER_COPY 0
            simp only [Nat.zero_mul, Nat.zero_min] at hl
            rw [hl]
            unfold perform
            rw [writeAll_append, Io.bind_apply, Io.bind_apply]
            have hr : (List.range' 0 MVHFS_SECTORS_PER_COPY).map (fun k =>
                (data_lba file (load32 fs.directory.bytes (entry_at file + 44) ^^^ 1) + k,
                  dataSector (dt.getD cleared) s.toNat k)) =
                dataWrites file (load32 fs.directory.bytes (entry_at file + 44) ^^^ 1)
                  (dt.getD cleared) s.toNat := by
              rw [← List.range_eq_range']
              rfl
            rw [hr]
            have ht := writeAll_table fs.device_id (dataWrites file
              (load32 fs.directory.bytes (entry_at file + 44) ^^^ 1) (dt.getD cleared)
              s.toNat) m
            rcases hb : writeAll fs.device_id (dataWrites file
              (load32 fs.directory.bytes (entry_at file + 44) ^^^ 1) (dt.getD cleared)
              s.toNat) m with ⟨_ | status, m'⟩
            · rfl
            · rw [hb] at ht
              have h' : HasSectors m' fs.device_id d := ⟨by rw [ht]; exact h.get, h.size⟩
              by_cases hs : status = 0
              · simp only [hs, ne_eq, not_true_eq_false, if_false]
                exact commit_or_restore h' (writeEdit_outside (entry_at file) s
                  (crc32 dt s.toNat) (load32 fs.directory.bytes (entry_at file + 44) ^^^ 1))
              · simp [hs]
  | remove n =>
    rcases n with _ | t
    · rfl
    · simp only [exec, mvhfs_remove, planOf, fileOf]
      split
      · rfl
      · rcases find_entry fs t with _ | file
        · rfl
        · exact commit_or_restore h (removeEdit_outside (entry_at file))

end mvh.mvhfs
