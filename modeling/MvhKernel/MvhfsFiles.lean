-- What the filesystem is for: a finite map from names to bytes.
import MvhKernel.MvhfsNames
import MvhKernel.MvhfsSound
import MvhKernel.SlotTable

open flat_memory write_list slot_table mvh.block mvh.crc

namespace mvh.mvhfs

/-! ## The map -/

abbrev Files := Finmap fun _ : Name => Contents

/-- The bytes that a write is given, or `none` when there are too many, or none at all. -/
def contentsOf (data : Option Mem) (size : UInt32) : Option Contents :=
  if h : size.toNat ≤ 4096 then
    match data with
    | none => if size = 0 then some Contents.empty else none
    | some bytes => some ⟨slice bytes 0 size.toNat, by rw [slice_length]; exact h⟩
  else none

def Files.exec (files : Files) : Op → Int × Files
  | .create name =>
    match name.bind nameOf with
    | none => (-1, files)
    | some n =>
      if n ∈ files ∨ 32 ≤ files.keys.card then (-1, files)
      else (0, files.insert n Contents.empty)
  | .write name data size =>
    match name.bind nameOf, contentsOf data size with
    | some n, some c => if n ∈ files then (0, files.insert n c) else (-1, files)
    | _, _ => (-1, files)
  | .remove name =>
    match name.bind nameOf with
    | none => (-1, files)
    | some n => if n ∈ files then (0, files.erase n) else (-1, files)

def Files.read (files : Files) (name : Option Mem) (buffer : Bool) (capacity : UInt32) (size : Bool) :
    ReadResult :=
  match size, (name.bind nameOf).bind fun n => files.lookup n with
  | true, some c =>
    if capacity.toNat < c.val.length ∨ (buffer = false ∧ c.val ≠ []) then
      ⟨-2, some (UInt32.ofNat c.val.length), []⟩
    else ⟨0, some (UInt32.ofNat c.val.length), c.val⟩
  | _, _ => ⟨-1, none, []⟩

/-- A listing of the files: each file stands in it once, and nothing else. -/
def Files.Listing (files : Files) (l : List (Name × Contents)) : Prop :=
  (l.map Prod.fst).Nodup ∧ ∀ n c, (n, c) ∈ l ↔ files.lookup n = some c

/-- A listed file as the caller's array holds it: the name field and the size. -/
def listed (file : Name × Contents) : List UInt8 × UInt32 :=
  (nameField file.1, UInt32.ofNat file.2.val.length)

/-! ## How an entry holds a file -/

structure EntryHolds (disk : Nat → Buffer 512) (directory : Buffer 2048) (i : Nat) (n : Name)
    (c : Contents) : Prop where
  used : usedAt directory i ≠ 0
  name : slice directory.bytes (entry_at i) 32 = nameField n
  size : sizeAt directory i = UInt32.ofNat c.val.length
  slot : slotAt directory i ≤ 1
  data : slice (dataFrom disk (data_lba i (slotAt directory i))) 0 c.val.length = c.val
  crc : crcAt directory i =
    crc32 (some (dataFrom disk (data_lba i (slotAt directory i)))) c.val.length

def EntryIs (disk : Nat → Buffer 512) (directory : Buffer 2048) (i : Nat) :
    Option (Name × Contents) → Prop
  | none => usedAt directory i = 0
  | some (n, c) => EntryHolds disk directory i n c

def Tabled (disk : Nat → Buffer 512) (directory : Buffer 2048)
    (table : Nat → Option (Name × Contents)) : Prop :=
  ∀ i < 32, EntryIs disk directory i (table i)

theorem toNat_ofNat_length (c : Contents) : (UInt32.ofNat c.val.length).toNat = c.val.length := by
  have := c.property
  rw [UInt32.toNat_ofNat']
  omega

section
variable {disk : Nat → Buffer 512} {fs : Mvhfs} {table : Nat → Option (Name × Contents)}
  {files : Files} {text : Mem} {n : Name}

theorem Tabled.entry_name_equal (h : Tabled disk fs.directory table) (hn : nameOf text = some n)
    {i : Nat} (hi : i < 32) :
    entry_name_equal (shift fs.directory.bytes (entry_at i)) text = true ↔
      ∃ c, table i = some (n, c) := by
  have he := h i hi
  rcases ht : table i with _ | ⟨n', c⟩
  · rw [ht] at he
    have hf : load32 (shift fs.directory.bytes (entry_at i)) 32 = 0 := by
      rw [load32_shift]
      exact he
    rw [mvhfs.entry_name_equal, if_pos hf]
    simp
  · rw [ht] at he
    have hu : load32 (shift fs.directory.bytes (entry_at i)) 32 ≠ 0 := by
      rw [load32_shift]
      exact he.used
    have hnm : nameOf (shift fs.directory.bytes (entry_at i)) = some n' := by
      apply nameOf_nameField
      rw [← he.name]
      apply slice_congr
      simp
    grind [entry_name_equal_iff]

theorem Tabled.find_entry_mem (h : Tabled disk fs.directory table) (hs : Stores 32 table files)
    (hn : nameOf text = some n) (hm : n ∈ files) :
    ∃ i < 32, ∃ c, find_entry fs text = some i ∧ table i = some (n, c) ∧
      files.lookup n = some c := by
  obtain ⟨i, hi, c, ht, hl⟩ := hs.slot_of_mem hm
  refine ⟨i, hi, c, ?_, ht, hl⟩
  unfold find_entry
  rw [List.find?_eq_some_iff_getElem]
  refine ⟨(h.entry_name_equal hn hi).mpr ⟨c, ht⟩, i, by rw [List.length_range]; exact hi, by simp, ?_⟩
  intro j hj
  rw [List.getElem_range, Bool.not_eq_true']
  rw [← Bool.not_eq_true, h.entry_name_equal hn (by omega)]
  rintro ⟨c', ht'⟩
  have := hs.distinct j (by omega) i hi n c' c ht' ht
  omega

theorem Tabled.find_entry_not_mem (h : Tabled disk fs.directory table) (hs : Stores 32 table files)
    (hn : nameOf text = some n) (hm : n ∉ files) : find_entry fs text = none := by
  unfold find_entry
  rw [List.find?_eq_none]
  intro i hi
  rw [h.entry_name_equal hn (List.mem_range.mp hi)]
  rintro ⟨c, ht⟩
  exact hs.slot_ne hm (List.mem_range.mp hi) c ht

theorem Tabled.find_free_eq (h : Tabled disk fs.directory table) (hs : Stores 32 table files) :
    (32 ≤ files.keys.card ∧ find_free fs = none) ∨
      (files.keys.card < 32 ∧ ∃ i < 32, find_free fs = some i ∧ table i = none) := by
  have hfr : ∀ i < 32, usedAt fs.directory i = 0 ↔ table i = none := by
    intro i hi
    have he := h i hi
    rcases ht : table i with _ | ⟨n', c⟩
    · grind [EntryIs]
    · rw [ht] at he
      simpa using he.used
  rcases hf : find_free fs with _ | i
  · refine Or.inl ⟨?_, rfl⟩
    by_contra hlt
    obtain ⟨i, hi, hn⟩ := hs.free_iff.mpr (by omega)
    unfold find_free at hf
    rw [List.find?_eq_none] at hf
    have := hf i (List.mem_range.mpr hi)
    rw [beq_iff_eq] at this
    exact this ((hfr i hi).mpr hn)
  · obtain ⟨hi, hu⟩ := find_free_some hf
    have hn := (hfr i hi).mp hu
    exact Or.inr ⟨hs.free_iff.mp ⟨i, hi, hn⟩, i, hi, rfl, hn⟩

theorem fileOf_invalid (hn : nameOf text = none) : fileOf fs text = none := by
  have hv : valid_name (some text) = false := by simp [← Bool.not_eq_true, valid_name_iff, hn]
  rw [fileOf, if_pos (Or.inr hv)]

theorem fileOf_valid (hm : fs.mounted = 1) (hn : nameOf text = some n) :
    fileOf fs text = find_entry fs text := by
  have hv : valid_name (some text) = true := (valid_name_iff text).mpr ⟨n, hn⟩
  simp [fileOf, hm, hv]

/-! ## What the handle shows -/

theorem readEntry_eq {i : Nat} {c : Contents} (h : EntryHolds disk fs.directory i n c) (buffer : Bool)
    (capacity : UInt32) :
    readEntry disk fs i buffer capacity =
      if capacity.toNat < c.val.length ∨ (buffer = false ∧ c.val ≠ []) then
        ⟨-2, some (UInt32.ofNat c.val.length), []⟩
      else ⟨0, some (UInt32.ofNat c.val.length), c.val⟩ := by
  have hlen := toNat_ofNat_length c
  have hbound := c.property
  have hcap : capacity < UInt32.ofNat c.val.length ↔ capacity.toNat < c.val.length := by
    rw [UInt32.lt_iff_toNat_lt, hlen]
  have hzero : UInt32.ofNat c.val.length ≠ 0 ↔ c.val ≠ [] := by
    rw [ne_eq, ← UInt32.toNat_inj, hlen, UInt32.toNat_zero, List.length_eq_zero_iff]
  have hslot : ¬ slotAt fs.directory i > 1 := UInt32.not_lt.mpr h.slot
  unfold readEntry
  simp only [h.size, hlen, hcap, hzero, MVHFS_FILE_MAX]
  by_cases hbad : capacity.toNat < c.val.length ∨ (buffer = false ∧ c.val ≠ [])
  · rw [if_pos (Or.inr hbad), if_pos hbad]
  · rw [if_neg (by rintro (h1 | h1) <;> [omega; exact hbad h1]), if_neg hbad, if_neg hslot,
      readData, hlen, h.data, if_pos h.crc.symm]

theorem Tabled.readOn_eq (h : Tabled disk fs.directory table) (hs : Stores 32 table files)
    (hm : fs.mounted = 1) (nm : Option Mem) (buffer : Bool) (cp : UInt32) (size : Bool) :
    readOn disk fs nm buffer cp size = files.read nm buffer cp size := by
  rcases nm with _ | text
  · cases size <;> rfl
  · unfold readOn Files.read
    simp only [Option.bind_some]
    cases size with
    | false => rfl
    | true =>
      rw [if_neg (by simp)]
      rcases hn : nameOf text with _ | n
      · rw [fileOf_invalid hn]
        rfl
      · rw [fileOf_valid hm hn, Option.bind_some]
        by_cases hmm : n ∈ files
        · obtain ⟨i, hi, c, hf, ht, hl⟩ := h.find_entry_mem hs hn hmm
          have he := h i hi
          rw [ht] at he
          rw [hf, hl]
          exact readEntry_eq he buffer cp
        · rw [h.find_entry_not_mem hs hn hmm, Finmap.lookup_eq_none.mpr hmm]

theorem Tabled.list_fold (h : Tabled disk fs.directory table) (cp : Nat) (is : List Nat)
    (his : ∀ i ∈ is, i < 32) (cn : Nat) (e : List (List UInt8 × UInt32)) :
    is.foldl (mvhfs_list_step fs cp) (cn, e) =
      (cn + (is.filterMap table).length,
        e ++ ((is.filterMap table).take (cp - cn)).map listed) := by
  induction is generalizing cn e with
  | nil => simp
  | cons i is ih =>
    have he := h i (his i List.mem_cons_self)
    have hrs := fun j hj => his j (List.mem_cons_of_mem i hj)
    rw [List.foldl_cons]
    rcases ht : table i with _ | ⟨n, c⟩
    · rw [ht] at he
      have hf : load32 fs.directory.bytes (entry_at i + 32) = 0 := he
      grind [mvhfs_list_step, List.filterMap_cons_none]
    · rw [ht] at he
      have hu : ¬ load32 fs.directory.bytes (entry_at i + 32) = 0 := he.used
      have hl : (slice fs.directory.bytes (entry_at i) MVHFS_NAME_MAX,
          load32 fs.directory.bytes (entry_at i + 36)) = listed (n, c) :=
        Prod.ext he.name he.size
      rw [mvhfs_list_step, if_neg hu, List.filterMap_cons_some ht, List.length_cons]
      by_cases hr : cn < cp
      · obtain ⟨k, hk⟩ := Nat.exists_eq_add_of_lt hr
        have h1 : cp - (cn + 1) = k := by omega
        have h2 : cp - cn = k + 1 := by omega
        grind
      · have h1 : cp - (cn + 1) = 0 := by omega
        have h2 : cp - cn = 0 := by omega
        grind

theorem Tabled.list_eq (h : Tabled disk fs.directory table) (hs : Stores 32 table files)
    (hm : fs.mounted = 1) : ∃ l, files.Listing l ∧
      ∀ c, mvhfs_list fs c = (l.length, (l.take c).map listed) := by
  refine ⟨listing 32 table, ⟨hs.listing_nodup, hs.mem_listing_iff⟩, ?_⟩
  intro c
  have hne : ¬ fs.mounted = 0 := by
    rw [hm]
    decide
  have hr : ∀ i ∈ List.range MVHFS_MAX_FILES, i < 32 := fun i hi => List.mem_range.mp hi
  rw [mvhfs_list, if_neg hne, h.list_fold c _ hr]
  simp only [Nat.zero_add, List.nil_append, Nat.sub_zero]
  rfl

end

end mvh.mvhfs
