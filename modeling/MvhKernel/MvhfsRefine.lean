-- Each call that changes files does on the disk what it does on the map.
import MvhKernel.MvhfsFiles

open flat_memory write_list slot_table mvh.block mvh.crc

namespace mvh.mvhfs

/-! ## Entries that a call does not touch -/

section
variable {disk disk' : Nat → Buffer 512} {fs : Mvhfs} {table : Nat → Option (Name × Contents)}

theorem EntryHolds.congr {dr dr' : Buffer 2048} {i : Nat} {n : Name} {c : Contents}
    (h : EntryHolds disk dr i n c)
    (hdr : ∀ x < 64, dr'.bytes (entry_at i + x) = dr.bytes (entry_at i + x))
    (hd : ∀ k, k * 512 < c.val.length →
      disk' (data_lba i (slotAt dr i) + k) = disk (data_lba i (slotAt dr i) + k)) :
    EntryHolds disk' dr' i n c := by
  have hf : ∀ off, off + 4 ≤ 64 →
      load32 dr'.bytes (entry_at i + off) = load32 dr.bytes (entry_at i + off) := by
    grind [Nat.add_assoc, load32_congr]
  have hs : slotAt dr' i = slotAt dr i := hf 44 (by omega)
  have hdt := dataFrom_congr hd
  refine ⟨?_, ?_, ?_, ?_, ?_, ?_⟩
  · rw [usedAt, hf 32 (by omega)]
    exact h.used
  · rw [← h.name]
    grind [slice_congr]
  · rw [sizeAt, hf 36 (by omega)]
    exact h.size
  · rw [hs]
    exact h.slot
  · rw [hs, ← h.data]
    grind [slice_length, slice_congr]
  · rw [hs, crcAt, hf 40 (by omega), crc32_congr hdt]
    exact h.crc

theorem EntryHolds.live {i : Nat} {n : Name} {c : Contents} (h : EntryHolds disk fs.directory i n c)
    (hi : i < 32) {k : Nat} (hk : k * 512 < c.val.length) :
    Live fs (data_lba i (slotAt fs.directory i) + k) := by
  have hl := toNat_ofNat_length c
  have hm := c.property
  exact ⟨i, hi, h.used, by rw [h.size]; omega, h.slot, k, by rw [h.size]; omega, rfl⟩

theorem Tabled.edit (h : Tabled disk fs.directory table) {i : Nat} {f : Mem → Mem}
    (hf : EditsEntry (entry_at i) f) (hl : ∀ lba, Live fs lba → disk' lba = disk lba)
    {e : Option (Name × Contents)} (hi : EntryIs disk' (fs.edit f).directory i e) :
    Tabled disk' (fs.edit f).directory (Function.update table i e) := by
  intro j hj
  by_cases hij : j = i
  · grind
  · rw [Function.update_of_ne hij]
    have he := h j hj
    rcases ht : table j with _ | ⟨n, c⟩
    · rw [ht] at he
      have hfl := load32_edit_ne fs hf hj hij (show 32 + 4 ≤ 64 by omega)
      exact hfl.trans he
    · rw [ht] at he
      refine EntryHolds.congr he ?_ ?_
      · intro x hx
        have hat : ∀ k, entry_at k = k * 64 := fun _ => rfl
        rw [hat] at hf ⊢
        rw [Mvhfs.edit, Buffer.bytes_ofMem _ (by omega), hf _ _ (by omega)]
      · exact fun k hk => hl _ (he.live hj hk)

theorem Tabled.congr (h : Tabled disk fs.directory table)
    (hl : ∀ lba, Live fs lba → disk' lba = disk lba) : Tabled disk' fs.directory table := by
  intro j hj
  have he := h j hj
  rcases ht : table j with _ | ⟨n, c⟩
  · rw [ht] at he
    exact he
  · rw [ht] at he
    exact EntryHolds.congr he (fun _ _ => rfl) fun k hk => hl _ (he.live hj hk)

/-! ## The entry of a new file -/

theorem copy_name_loop_inside {t : Mem} {n : Name} (h : nameOf t = some n) (e f k : Nat)
    (m : Mem) (hf : k + f = 32) (hk : k ≤ n.val.length) (i : Nat) :
    copy_name_loop t e f k m (e + i) =
      if k ≤ i ∧ i < n.val.length then t i else m (e + i) := by
  have hl := n.property.2.1
  obtain ⟨hb, hz⟩ := nameOf_bytes h
  induction f generalizing k m with
  | zero => omega
  | succ f ih =>
    unfold copy_name_loop
    grind

theorem nameField_getElem? (n : Name) {x : Nat} (hx : x < 32) :
    (nameField n)[x]? = some (n.val[x]?.getD 0) := by
  have hl := n.property.2.1
  rw [nameField]
  grind

theorem nameField_length (n : Name) : (nameField n).length = 32 := by
  have hl := n.property.2.1
  rw [nameField, List.length_append, List.length_replicate]
  omega

theorem createEdit_holds {t : Mem} {n : Name} (hn : nameOf t = some n) {i : Nat} (hi : i < 32)
    (fs : Mvhfs) (disk : Nat → Buffer 512) :
    EntryHolds disk (fs.edit (createEdit t (entry_at i))).directory i n Contents.empty := by
  have hl := n.property.2.1
  obtain ⟨hs, _⟩ := nameOf_eq_some.mp hn
  have hat : entry_at i = i * 64 := rfl
  have hu : usedAt (fs.edit (createEdit t (entry_at i))).directory i = 1 := by
    rw [usedAt, load32_edit fs _ hi (by omega), createEdit, load32_store32_ne _ _ (by omega),
      load32_store32_ne _ _ (by omega), load32_store32_ne _ _ (by omega), load32_store32]
  have hsz : sizeAt (fs.edit (createEdit t (entry_at i))).directory i = 0 := by
    rw [sizeAt, load32_edit fs _ hi (by omega), createEdit, load32_store32_ne _ _ (by omega),
      load32_store32_ne _ _ (by omega), load32_store32]
  have hc : crcAt (fs.edit (createEdit t (entry_at i))).directory i = 0 := by
    rw [crcAt, load32_edit fs _ hi (by omega), createEdit, load32_store32_ne _ _ (by omega),
      load32_store32]
  have hsl : slotAt (fs.edit (createEdit t (entry_at i))).directory i = 0 := by
    rw [slotAt, load32_edit fs _ hi (by omega), createEdit, load32_store32]
  refine ⟨?_, ?_, hsz, ?_, rfl, ?_⟩
  · rw [hu]
    decide
  · apply List.ext_getElem?
    intro x
    by_cases hx : x < 32
    · rw [slice_getElem? _ _ hx, nameField_getElem? n hx, Mvhfs.edit,
        Buffer.bytes_ofMem _ (by omega), createEdit]
      simp only [MVHFS_ENTRY_SIZE, MVHFS_NAME_MAX]
      rw [store32_outside _ _ (by omega), store32_outside _ _ (by omega),
        store32_outside _ _ (by omega), store32_outside _ _ (by omega),
        copy_name_loop_inside hn _ _ _ _ rfl (Nat.zero_le _)]
      grind [slice_byte]
    grind [List.getElem?_eq_none, slice_length, nameField_length]
  · rw [hsl]
    decide
  · rw [hc]
    exact (crc32_zero _).symm

/-! ## The entry of a written file -/

theorem dataFrom_dataSector {lba s : Nat} {i : Mem} (hs : s ≤ 4096)
    (h : ∀ k < 8, disk (lba + k) = dataSector i s k) :
    ∀ x < s, dataFrom disk lba x = i x := by
  intro x hx
  have hm : x / 512 * 512 + x % 512 = x := by omega
  grind [dataFrom, dataSector, Buffer.bytes_ofMem]

theorem contentsOf_some {dt : Option Mem} {s : UInt32} {c : Contents}
    (h : contentsOf dt s = some c) :
    c.val = slice (dt.getD cleared) 0 s.toNat ∧ s.toNat ≤ 4096 ∧
      crc32 dt s.toNat = crc32 (some (dt.getD cleared)) s.toNat := by
  unfold contentsOf at h
  split at h
  · rename_i hs
    rcases dt with _ | b
    · simp only at h
      split at h
      · rename_i h0
        cases h
        subst h0
        refine ⟨rfl, hs, ?_⟩
        simp
      · cases h
    grind
  · cases h

theorem contentsOf_none {dt : Option Mem} {s : UInt32} (h : contentsOf dt s = none) :
    s.toNat > MVHFS_FILE_MAX ∨ (dt.isNone ∧ s ≠ 0) := by
  unfold contentsOf at h
  split at h
  · grind
  · rename_i hs
    exact Or.inl (Nat.not_le.mp hs)

theorem writeEdit_holds {n : Name} {c0 c : Contents} {i : Nat} (hi : i < 32)
    (h : EntryHolds disk fs.directory i n c0) {dt : Option Mem} {s : UInt32}
    (hc : contentsOf dt s = some c)
    (hd : ∀ k < 8, disk' (data_lba i (slotAt fs.directory i ^^^ 1) + k) =
      dataSector (dt.getD cleared) s.toNat k) :
    EntryHolds disk' (fs.edit (writeEdit (entry_at i) s (crc32 dt s.toNat)
      (slotAt fs.directory i ^^^ 1))).directory i n c := by
  obtain ⟨hv, hm, hsm⟩ := contentsOf_some hc
  have hl : c.val.length = s.toNat := by rw [hv, slice_length]
  have hb := dataFrom_dataSector hm hd
  have hat : entry_at i = i * 64 := rfl
  generalize hf : writeEdit (entry_at i) s (crc32 dt s.toNat)
    (slotAt fs.directory i ^^^ 1) = f
  have hs : slotAt (fs.edit f).directory i = slotAt fs.directory i ^^^ 1 := by
    rw [slotAt, load32_edit fs _ hi (by omega), ← hf, writeEdit, load32_store32]
  refine ⟨?_, ?_, ?_, ?_, ?_, ?_⟩
  · rw [usedAt, load32_edit fs _ hi (by omega), ← hf, writeEdit, load32_store32_ne _ _ (by omega),
      load32_store32_ne _ _ (by omega), load32_store32_ne _ _ (by omega)]
    exact h.used
  · rw [← h.name]
    apply slice_congr
    intro x hx
    rw [Mvhfs.edit, Buffer.bytes_ofMem _ (by omega), ← hf, writeEdit,
      store32_outside _ _ (by omega), store32_outside _ _ (by omega),
      store32_outside _ _ (by omega)]
  · rw [sizeAt, load32_edit fs _ hi (by omega), ← hf, writeEdit, load32_store32_ne _ _ (by omega),
      load32_store32_ne _ _ (by omega), load32_store32, hl, UInt32.ofNat_toNat]
  · rw [hs]
    exact xor_one_le h.slot
  · grind [slice_congr]
  · rw [crcAt, load32_edit fs _ hi (by omega), hs, hl, ← hf, writeEdit,
      load32_store32_ne _ _ (by omega), load32_store32, hsm]
    exact (crc32_congr hb).symm

end

/-! ## The changes -/

section
variable {disk : Nat → Buffer 512} {d : BlockDevice} {fs : Mvhfs}
  {table : Nat → Option (Name × Contents)} {files : Files}

/-- A call does on the disk what it does on the map: it is turned away by both, or it succeeds on
both and the disk then holds the new map. -/
def Refines (disk : Nat → Buffer 512) (d : BlockDevice) (fs : Mvhfs) (files : Files) (op : Op) : Prop :=
  (planOf fs op = none ∧ files.exec op = (-1, files)) ∨
    ∃ ws fs1 table', planOf fs op = some (ws, fs1) ∧ (files.exec op).1 = 0 ∧
      Stores 32 table' (files.exec op).2 ∧
      Tabled (apply disk (ws ++ commitWrites d.sector_count fs1)) fs1.directory table'

theorem Sound.live_after (h : Sound disk d fs) {op : Op} {ws : List (Nat × Buffer 512)} {fs1 : Mvhfs}
    (hp : planOf fs op = some (ws, fs1)) {lba : Nat} (hl : Live fs lba) :
    apply disk (ws ++ commitWrites d.sector_count fs1) lba = disk lba := by
  have := h.held hp (ws ++ commitWrites d.sector_count fs1).length (Or.inr (Or.inr hl))
  rwa [List.take_length] at this

theorem create_refines (hsn : Sound disk d fs) (h : Tabled disk fs.directory table)
    (hs : Stores 32 table files) (nm : Option Mem) : Refines disk d fs files (.create nm) := by
  rcases nm with _ | t
  · exact Or.inl ⟨rfl, rfl⟩
  have hm : ¬ fs.mounted = 0 := by
    rw [hsn.mounted]
    decide
  rcases hn : nameOf t with _ | n
  · have hv : valid_name (some t) = false := by simp [← Bool.not_eq_true, valid_name_iff, hn]
    refine Or.inl ⟨?_, ?_⟩
    · rw [planOf, if_pos (Or.inr (Or.inl hv))]
    · rw [Files.exec, Option.bind_some, hn]
  have hv : valid_name (some t) = true := (valid_name_iff t).mpr ⟨n, hn⟩
  have he : files.exec (.create (some t)) =
      if n ∈ files ∨ 32 ≤ files.keys.card then (-1, files)
      else (0, files.insert n Contents.empty) := by
    rw [Files.exec, Option.bind_some, hn]
  by_cases hmm : n ∈ files
  · obtain ⟨i, _, _, hf, _⟩ := h.find_entry_mem hs hn hmm
    refine Or.inl ⟨?_, ?_⟩
    · simp [planOf, hf]
    · rw [he, if_pos (Or.inl hmm)]
  have hf := h.find_entry_not_mem hs hn hmm
  have hg : ¬ (fs.mounted = 0 ∨ valid_name (some t) = false ∨
      (find_entry fs t).isSome) := by
    rw [hv, hf]
    simpa using hm
  rcases h.find_free_eq hs with ⟨hfl, hfr⟩ | ⟨hr, i, hi, hfr, hnn⟩
  · refine Or.inl ⟨?_, ?_⟩
    · rw [planOf, if_neg hg, hfr]
      rfl
    · rw [he, if_pos (Or.inr hfl)]
  · have hp : planOf fs (.create (some t)) =
        some ([], fs.edit (createEdit t (entry_at i))) := by
      rw [planOf, if_neg hg, hfr]
      rfl
    rw [if_neg (by rintro (h1 | h1) <;> [exact hmm h1; omega])] at he
    refine Or.inr ⟨[], _, Function.update table i (some (n, Contents.empty)), hp, ?_, ?_, ?_⟩
    · rw [he]
    · rw [he]
      exact hs.put_new hi hnn hmm Contents.empty
    · exact h.edit (createEdit_outside t (entry_at i)) (fun lba => hsn.live_after hp)
        (createEdit_holds hn hi fs _)

theorem apply_dataWrites (disk : Nat → Buffer 512) (i : Nat) (s : UInt32) (ip : Mem) (sz : Nat)
    {k : Nat} (hk : k < 8) :
    apply disk (dataWrites i s ip sz) (data_lba i s + k) = dataSector ip sz k := by
  refine apply_of_mem _ _ ?_ (List.mem_map.mpr ⟨k, List.mem_range.mpr hk, rfl⟩)
  grind [dataWrites, List.map_map, List.Nodup.map]

theorem data_after (fs : Mvhfs) (hs : fs.superblock_slot ≤ 1) (disk : Nat → Buffer 512) (i : Nat) (s : UInt32)
    (ip : Mem) (sz : Nat) (c : UInt64) {k : Nat} (hk : k < 8) :
    apply disk (dataWrites i s ip sz ++ commitWrites c fs) (data_lba i s + k) =
      dataSector ip sz k := by
  have hsp := toNat_xor_one hs
  have hdr := directory_lba_cases (fs.directory_slot ^^^ 1)
  have hd := data_lba_eq i s
  rw [apply_append, apply_of_not_mem]
  · exact apply_dataWrites disk i s ip sz hk
  · intro w hw
    rcases List.mem_append.mp hw with hw | hw
    · obtain ⟨j, hj, rfl⟩ := List.mem_map.mp hw
      grind
    grind

theorem write_refines (hsn : Sound disk d fs) (h : Tabled disk fs.directory table)
    (hs : Stores 32 table files) (nm dt : Option Mem) (s : UInt32) :
    Refines disk d fs files (.write nm dt s) := by
  rcases nm with _ | t
  · exact Or.inl ⟨rfl, rfl⟩
  rcases hc : contentsOf dt s with _ | c
  · refine Or.inl ⟨?_, ?_⟩
    · rw [planOf, if_pos (contentsOf_none hc)]
    simp [Files.exec, Option.bind_some, hc]
  have hsz : ¬ (s.toNat > MVHFS_FILE_MAX ∨ (dt.isNone ∧ s ≠ 0)) := by
    rintro (h1 | ⟨h1, h2⟩)
    · rw [MVHFS_FILE_MAX] at h1
      have := (contentsOf_some hc).2.1
      omega
    grind [Option.isNone_iff_eq_none, contentsOf]
  rcases hn : nameOf t with _ | n
  · refine Or.inl ⟨?_, ?_⟩
    · grind [planOf, fileOf_invalid]
    · rw [Files.exec, Option.bind_some, hn]
  have he : files.exec (.write (some t) dt s) =
      if n ∈ files then (0, files.insert n c) else (-1, files) := by
    rw [Files.exec, Option.bind_some, hn, hc]
  by_cases hm : n ∈ files
  · obtain ⟨i, hi, c0, hf, ht, _⟩ := h.find_entry_mem hs hn hm
    have hen := h i hi
    rw [ht] at hen
    have hp : planOf fs (.write (some t) dt s) =
        some (dataWrites i (slotAt fs.directory i ^^^ 1) (dt.getD cleared) s.toNat,
          fs.edit (writeEdit (entry_at i) s (crc32 dt s.toNat)
            (slotAt fs.directory i ^^^ 1))) := by
      rw [planOf, if_neg hsz, fileOf_valid hsn.mounted hn, hf]
      rfl
    rw [if_pos hm] at he
    refine Or.inr ⟨_, _, Function.update table i (some (n, c)), hp, ?_, ?_, ?_⟩
    · rw [he]
    · rw [he]
      exact hs.put_old hi ht c
    · refine h.edit (writeEdit_outside _ _ _ _) (fun lba => hsn.live_after hp) ?_
      refine writeEdit_holds hi hen hc fun k hk => ?_
      exact data_after (fs.edit _) hsn.slot_le _ _ _ _ _ _ hk
  · refine Or.inl ⟨?_, ?_⟩
    · rw [planOf, if_neg hsz, fileOf_valid hsn.mounted hn, h.find_entry_not_mem hs hn hm]
      rfl
    · rw [he, if_neg hm]

theorem remove_refines (hsn : Sound disk d fs) (h : Tabled disk fs.directory table)
    (hs : Stores 32 table files) (nm : Option Mem) : Refines disk d fs files (.remove nm) := by
  rcases nm with _ | t
  · exact Or.inl ⟨rfl, rfl⟩
  rcases hn : nameOf t with _ | n
  · refine Or.inl ⟨?_, ?_⟩
    · rw [planOf, fileOf_invalid hn]
      rfl
    · rw [Files.exec, Option.bind_some, hn]
  have he : files.exec (.remove (some t)) =
      if n ∈ files then (0, files.erase n) else (-1, files) := by
    rw [Files.exec, Option.bind_some, hn]
  by_cases hm : n ∈ files
  · obtain ⟨i, hi, c, hf, ht, _⟩ := h.find_entry_mem hs hn hm
    have hp : planOf fs (.remove (some t)) =
        some ([], fs.edit (removeEdit (entry_at i))) := by
      rw [planOf, fileOf_valid hsn.mounted hn, hf]
      rfl
    rw [if_pos hm] at he
    refine Or.inr ⟨[], _, Function.update table i none, hp, ?_, ?_, ?_⟩
    · rw [he]
    · rw [he]
      exact hs.clear hi ht
    · refine h.edit (removeEdit_outside _) (fun lba => hsn.live_after hp) ?_
      show usedAt _ i = 0
      rw [usedAt, load32_edit fs _ hi (by omega), removeEdit,
        load32_fill_zero _ (by omega) (by simp only [MVHFS_ENTRY_SIZE]; omega)]
  · refine Or.inl ⟨?_, ?_⟩
    · rw [planOf, fileOf_valid hsn.mounted hn, h.find_entry_not_mem hs hn hm]
      rfl
    · rw [he, if_neg hm]

theorem change_refines (hsn : Sound disk d fs) (h : Tabled disk fs.directory table)
    (hs : Stores 32 table files) (op : Op) : Refines disk d fs files op := by
  cases op with
  | create n => exact create_refines hsn h hs n
  | write n dt s => exact write_refines hsn h hs n dt s
  | remove n => exact remove_refines hsn h hs n

end

end mvh.mvhfs
