-- The handoff from the boot loader (`bootinfo.c`): the BootInfo V2 block in memory, the
-- checks of `validate_v2`, and the snapshot that the kernel keeps.
import MvhKernel.Scan

open flat_memory ranges scan

namespace mvh.bootinfo

structure Framebuffer where
  address : UInt64
  width : UInt32
  height : UInt32
  pitch : UInt32
  bits_per_pixel : UInt32
  red_mask : UInt32
  green_mask : UInt32
  blue_mask : UInt32
  reserved : UInt32
  deriving DecidableEq

/-- The block `mvh_bootinfo_v2_t`. -/
structure Info where
  magic : UInt64
  version : UInt32
  size : UInt32
  flags : UInt64
  memory_kib : UInt64
  memory_map_address : UInt64
  memory_map_entries : UInt32
  memory_map_entry_size : UInt32
  acpi_rsdp_address : UInt64
  smbios_address : UInt64
  framebuffer : Framebuffer
  random_seed_address : UInt64
  random_seed_size : UInt32
  reserved0 : UInt32
  command_line_address : UInt64
  command_line_size : UInt32
  reserved1 : UInt32
  deriving DecidableEq

/-- What the kernel keeps of the block, `mvh_bootinfo_snapshot_t`. -/
structure Snapshot where
  versioned : UInt8
  version : UInt32
  size : UInt32
  flags : UInt64
  memory_kib : UInt64
  memory_map_address : UInt64
  memory_map_entries : UInt32
  memory_map_entry_size : UInt32
  acpi_rsdp_address : UInt64
  smbios_address : UInt64
  framebuffer : Framebuffer
  random_seed_address : UInt64
  random_seed_size : UInt32
  command_line_address : UInt64
  command_line_size : UInt32
  deriving DecidableEq

abbrev HANDOFF_MAGIC : UInt64 := 0x32564F464E494856
abbrev MAGIC : UInt64 := 0x324F464E4948564D
abbrev IDENTITY_LIMIT : UInt64 := 0x40000000

abbrev FLAG_MEMORY_MAP : UInt64 := 0x1
abbrev FLAG_ACPI_RSDP : UInt64 := 0x2
abbrev FLAG_SMBIOS : UInt64 := 0x4
abbrev FLAG_FRAMEBUFFER : UInt64 := 0x8
abbrev FLAG_RANDOM_SEED : UInt64 := 0x10
abbrev FLAG_COMMAND_LINE : UInt64 := 0x20
abbrev FLAG_IDENTITY_4G : UInt64 := 0x40
abbrev KNOWN_FLAGS : UInt64 := 0x7F

def noFramebuffer : Framebuffer := ⟨0, 0, 0, 0, 0, 0, 0, 0, 0⟩

def cleared : Snapshot := ⟨0, 0, 0, 0, 0, 0, 0, 0, 0, 0, noFramebuffer, 0, 0, 0, 0⟩

/-! ## The model -/

/-- The fields of the block at an address, in the order of the structure. -/
def read_info (a : Nat) : Scan Snapshot Info := do
  let magic ← word64 a
  let version ← word32 (a + 8)
  let size ← word32 (a + 12)
  let flags ← word64 (a + 16)
  let memory_kib ← word64 (a + 24)
  let memory_map_address ← word64 (a + 32)
  let memory_map_entries ← word32 (a + 40)
  let memory_map_entry_size ← word32 (a + 44)
  let acpi_rsdp_address ← word64 (a + 48)
  let smbios_address ← word64 (a + 56)
  let address ← word64 (a + 64)
  let width ← word32 (a + 72)
  let height ← word32 (a + 76)
  let pitch ← word32 (a + 80)
  let bits_per_pixel ← word32 (a + 84)
  let red_mask ← word32 (a + 88)
  let green_mask ← word32 (a + 92)
  let blue_mask ← word32 (a + 96)
  let reserved ← word32 (a + 100)
  let random_seed_address ← word64 (a + 104)
  let random_seed_size ← word32 (a + 112)
  let reserved0 ← word32 (a + 116)
  let command_line_address ← word64 (a + 120)
  let command_line_size ← word32 (a + 128)
  let reserved1 ← word32 (a + 132)
  pure ⟨magic, version, size, flags, memory_kib, memory_map_address, memory_map_entries,
    memory_map_entry_size, acpi_rsdp_address, smbios_address,
    ⟨address, width, height, pitch, bits_per_pixel, red_mask, green_mask, blue_mask, reserved⟩,
    random_seed_address, random_seed_size, reserved0, command_line_address, command_line_size,
    reserved1⟩

def range_is_mapped (address size : UInt64) : Bool :=
  address ≥ 0x1000 && size != 0 && address < IDENTITY_LIMIT && size ≤ IDENTITY_LIMIT - address

def optional_range (flags flag address size : UInt64) : Bool :=
  if flags &&& flag = 0 then address == 0 else range_is_mapped address size

def headerValid (info : Info) : Bool :=
  info.magic == MAGIC && info.version == 2 && info.size ≥ 136 && info.size ≤ 4096 &&
    info.flags &&& ~~~KNOWN_FLAGS == 0 && info.memory_kib ≥ 4096 &&
    info.memory_kib ≤ 0xFFFFFFFFFFFFFFFF / 1024 && info.reserved0 == 0 && info.reserved1 == 0

def entryValid (a : Nat) : Scan Snapshot Bool := do
  let length ← word64 (a + 8)
  let base ← word64 a
  let type ← word32 (a + 16)
  pure (!(length == 0 || base > 0xFFFFFFFFFFFFFFFF - length || type < 1 || type > 6))

/-- The loop over the memory map, from an index on with the entries that are left. -/
def entriesValid (map stride : Nat) : Nat → Nat → Scan Snapshot Bool
  | _, 0 => pure true
  | index, left + 1 => do
    let valid ← entryValid (map + index * stride)
    if valid then entriesValid map stride (index + 1) left else pure false

def memoryMapValid (info : Info) : Scan Snapshot Bool :=
  if info.flags &&& FLAG_MEMORY_MAP ≠ 0 then
    if info.memory_map_entries = 0 ∨ info.memory_map_address &&& 7 ≠ 0 ∨
        info.memory_map_entry_size < 24 ∨ info.memory_map_entry_size &&& 7 ≠ 0 ∨
        info.memory_map_entries > 65536 ∨ info.memory_map_entry_size > 4096 then pure false
    else if range_is_mapped info.memory_map_address
        (info.memory_map_entries.toUInt64 * info.memory_map_entry_size.toUInt64) then
      entriesValid info.memory_map_address.toNat info.memory_map_entry_size.toNat 0
        info.memory_map_entries.toNat
    else pure false
  else
    pure (info.memory_map_address == 0 && info.memory_map_entries == 0 &&
      info.memory_map_entry_size == 0)

def framebufferValid (info : Info) : Bool :=
  if info.flags &&& FLAG_FRAMEBUFFER ≠ 0 then
    info.framebuffer.address != 0 && info.framebuffer.width != 0 && info.framebuffer.height != 0 &&
      info.framebuffer.pitch != 0 &&
      (info.framebuffer.bits_per_pixel == 24 || info.framebuffer.bits_per_pixel == 32)
  else info.framebuffer == noFramebuffer

/-- The last condition of `validate_v2`, on the random seed and the command line. -/
def tailValid (info : Info) : Bool :=
  optional_range info.flags FLAG_RANDOM_SEED info.random_seed_address
      info.random_seed_size.toUInt64 &&
    info.random_seed_size ≤ 256 &&
    (info.flags &&& FLAG_RANDOM_SEED != 0 || info.random_seed_size == 0) &&
    optional_range info.flags FLAG_COMMAND_LINE info.command_line_address
      info.command_line_size.toUInt64 &&
    info.command_line_size ≤ 4096 &&
    (info.flags &&& FLAG_COMMAND_LINE != 0 || info.command_line_size == 0)

def validate_v2 (info : Info) : Scan Snapshot Int :=
  if ¬ headerValid info then pure (-1)
  else do
    let valid ← memoryMapValid info
    if ¬ valid then pure (-1)
    else if ¬ optional_range info.flags FLAG_ACPI_RSDP info.acpi_rsdp_address 20 ∨
        ¬ optional_range info.flags FLAG_SMBIOS info.smbios_address 16 then pure (-1)
    else if ¬ framebufferValid info then pure (-1)
    else if ¬ tailValid info then pure (-1)
    else pure 0

def snapshotOf (info : Info) : Snapshot :=
  ⟨1, info.version, info.size, info.flags, info.memory_kib, info.memory_map_address,
    info.memory_map_entries, info.memory_map_entry_size, info.acpi_rsdp_address,
    info.smbios_address, info.framebuffer, info.random_seed_address, info.random_seed_size,
    info.command_line_address, info.command_line_size⟩

def bootinfo_capture (argument0 argument1 : UInt64) : Scan Snapshot Int := do
  modify fun _ => cleared
  if argument1 ≠ HANDOFF_MAGIC then
    if argument0 < 4096 ∨ argument0 > 0xFFFFFFFFFFFFFFFF / 1024 then pure (-1)
    else do
      modify fun current => { current with memory_kib := argument0 }
      pure 0
  else if argument0 &&& 7 ≠ 0 ∨ ¬ range_is_mapped argument0 136 then pure (-1)
  else do
    let info ← read_info argument0.toNat
    let result ← validate_v2 info
    if result ≠ 0 ∨ ¬ range_is_mapped argument0 info.size.toUInt64 then pure (-1)
    else do
      modify fun _ => snapshotOf info
      pure 0

/-! ## What the capture reads and keeps -/

def window : Range := ⟨0x1000, 0x40000000 - 0x1000⟩

/-- An optional range lies in the window when its flag is set, and has no address otherwise. -/
def Placed (flags flag address : UInt64) (size : Nat) : Prop :=
  if flags &&& flag = 0 then address = 0 else (⟨address.toNat, size⟩ : Range).Inside window

/-- The memory-map entry at an address: it is not empty, does not wrap and has a known type. -/
structure EntryValid (m : Mem) (a : Nat) : Prop where
  length : load64 m (a + 8) ≠ 0
  wraps : (load64 m a).toNat + (load64 m (a + 8)).toNat < 2 ^ 64
  type : 1 ≤ (load32 m (a + 16)).toNat ∧ (load32 m (a + 16)).toNat ≤ 6

/-- What the kernel may rely on when it has a versioned snapshot. -/
structure Sound (m : Mem) (s : Snapshot) : Prop where
  memory_map : Placed s.flags FLAG_MEMORY_MAP s.memory_map_address
    (s.memory_map_entries.toNat * s.memory_map_entry_size.toNat)
  rsdp : Placed s.flags FLAG_ACPI_RSDP s.acpi_rsdp_address 20
  smbios : Placed s.flags FLAG_SMBIOS s.smbios_address 16
  random_seed : Placed s.flags FLAG_RANDOM_SEED s.random_seed_address s.random_seed_size.toNat
  command_line : Placed s.flags FLAG_COMMAND_LINE s.command_line_address s.command_line_size.toNat
  entries : s.flags &&& FLAG_MEMORY_MAP ≠ 0 → ∀ index < s.memory_map_entries.toNat,
    EntryValid m (s.memory_map_address.toNat + index * s.memory_map_entry_size.toNat)

theorem range_is_mapped_iff (a sz : UInt64) :
    range_is_mapped a sz = true ↔ 0x1000 ≤ a.toNat ∧ 0 < sz.toNat ∧
      a.toNat + sz.toNat ≤ 0x40000000 := by
  have hl : IDENTITY_LIMIT.toNat = 0x40000000 := rfl
  have hp : sz ≠ 0 ↔ 0 < sz.toNat := by
    rw [Nat.pos_iff_ne_zero, ne_eq, ne_eq, ← UInt64.toNat_inj, UInt64.toNat_zero]
  simp only [range_is_mapped, Bool.and_eq_true, decide_eq_true_eq, bne_iff_ne, hp,
    ge_iff_le, UInt64.le_iff_toNat_le, UInt64.lt_iff_toNat_lt]
  grind

theorem inside_window {a n : Nat} (h1 : 0x1000 ≤ a) (h2 : a + n ≤ 0x40000000) :
    (⟨a, n⟩ : Range).Inside window :=
  Range.inside_of_le h1 (by unfold window; simp only; omega)

theorem placed_of_optional_range {f fl a sz : UInt64}
    (h : optional_range f fl a sz = true) :
    Placed f fl a sz.toNat := by
  unfold optional_range at h
  grind [Placed, inside_window, range_is_mapped_iff]

section
variable {m : Mem} {s : Snapshot}

abbrev Keeps (m : Mem) (s : Snapshot) {α : Type} (x : Scan Snapshot α)
    (post : α → Snapshot → Prop) : Prop := Meets (·.Inside window) m s x post

def infoAt (m : Mem) (a : Nat) : Info :=
  ⟨load64 m a, load32 m (a + 8), load32 m (a + 12), load64 m (a + 16), load64 m (a + 24),
    load64 m (a + 32), load32 m (a + 40), load32 m (a + 44), load64 m (a + 48),
    load64 m (a + 56),
    ⟨load64 m (a + 64), load32 m (a + 72), load32 m (a + 76), load32 m (a + 80),
      load32 m (a + 84), load32 m (a + 88), load32 m (a + 92), load32 m (a + 96),
      load32 m (a + 100)⟩,
    load64 m (a + 104), load32 m (a + 112), load32 m (a + 116), load64 m (a + 120),
    load32 m (a + 128), load32 m (a + 132)⟩

theorem read_info_spec {a : Nat} (h1 : 0x1000 ≤ a) (h2 : a + 136 ≤ 0x40000000) :
    Keeps m s (read_info a) fun i s' => i = infoAt m a ∧ s' = s := by
  refine ⟨fun r hr => ?_, infoAt m a, s, rfl, rfl, rfl⟩
  have hf : 0x1000 ≤ r.start ∧ r.start + r.length ≤ 0x40000000 := by
    have hrd : (read_info a m s).2 = [⟨a, 8⟩, ⟨a + 8, 4⟩, ⟨a + 12, 4⟩, ⟨a + 16, 8⟩,
        ⟨a + 24, 8⟩, ⟨a + 32, 8⟩, ⟨a + 40, 4⟩, ⟨a + 44, 4⟩, ⟨a + 48, 8⟩, ⟨a + 56, 8⟩,
        ⟨a + 64, 8⟩, ⟨a + 72, 4⟩, ⟨a + 76, 4⟩, ⟨a + 80, 4⟩, ⟨a + 84, 4⟩, ⟨a + 88, 4⟩,
        ⟨a + 92, 4⟩, ⟨a + 96, 4⟩, ⟨a + 100, 4⟩, ⟨a + 104, 8⟩, ⟨a + 112, 4⟩, ⟨a + 116, 4⟩,
        ⟨a + 120, 8⟩, ⟨a + 128, 4⟩, ⟨a + 132, 4⟩] := rfl
    rw [hrd] at hr
    simp only [List.mem_cons, List.not_mem_nil, or_false] at hr
    rcases hr with rfl | rfl | rfl | rfl | rfl | rfl | rfl | rfl | rfl | rfl | rfl | rfl | rfl |
      rfl | rfl | rfl | rfl | rfl | rfl | rfl | rfl | rfl | rfl | rfl | rfl <;> simp only <;> omega
  exact inside_window hf.1 hf.2

theorem entryValid_spec {a : Nat} (h1 : 0x1000 ≤ a) (h2 : a + 24 ≤ 0x40000000) :
    Keeps m s (entryValid a) fun v s' => s' = s ∧ (v = true → EntryValid m a) := by
  refine meets_word64 (inside_window (by omega) (by omega)) ?_
  refine meets_word64 (inside_window (by omega) (by omega)) ?_
  refine meets_word32 (inside_window (by omega) (by omega)) (meets_pure ⟨rfl, fun hv => ?_⟩)
  simp only [Bool.not_eq_true', Bool.or_eq_false_iff, decide_eq_false_iff_not, beq_eq_false_iff_ne,
    gt_iff_lt, UInt64.lt_iff_toNat_lt, UInt32.lt_iff_toNat_lt] at hv
  obtain ⟨⟨⟨hl, hw⟩, hlw⟩, hh⟩ := hv
  refine ⟨hl, ?_, ?_⟩
  · grind
  grind

theorem entriesValid_spec {map stride e : Nat} (hm : 0x1000 ≤ map) (hs : 24 ≤ stride)
    (he : map + e * stride ≤ 0x40000000) (index left : Nat) (h : index + left = e) :
    Keeps m s (entriesValid map stride index left) fun v s' => s' = s ∧
      (v = true → ∀ i, index ≤ i → i < e → EntryValid m (map + i * stride)) := by
  induction left generalizing index with
  | zero => exact meets_pure ⟨rfl, fun _ i hi hlt => by omega⟩
  | succ left ih =>
    have hr : (index + 1) * stride ≤ e * stride := Nat.mul_le_mul_right stride (by omega)
    rw [Nat.add_mul, Nat.one_mul] at hr
    refine meets_bind (entryValid_spec (by omega) (by omega)) ?_
    rintro v _ ⟨rfl, hf⟩
    split
    · rename_i hv
      refine (ih (index + 1) (by omega)).mono fun all s' ha => ⟨ha.1, fun ht i hi hlt => ?_⟩
      rcases Nat.eq_or_lt_of_le hi with rfl | hi
      · exact hf hv
      · exact ha.2 ht i hi hlt
    · exact meets_pure ⟨rfl, fun hfl => by cases hfl⟩

def MapSound (m : Mem) (info : Info) : Prop :=
  Placed info.flags FLAG_MEMORY_MAP info.memory_map_address
    (info.memory_map_entries.toNat * info.memory_map_entry_size.toNat) ∧
  (info.flags &&& FLAG_MEMORY_MAP ≠ 0 → ∀ index < info.memory_map_entries.toNat,
    EntryValid m (info.memory_map_address.toNat + index * info.memory_map_entry_size.toNat))

theorem map_size_toNat {e sz : UInt32} (h1 : ¬ e > 65536) (h2 : ¬ sz > 4096) :
    (e.toUInt64 * sz.toUInt64).toNat = e.toNat * sz.toNat := by
  have he : e.toNat ≤ 65536 := by grind
  have hs : sz.toNat ≤ 4096 := by grind
  have hp : e.toNat * sz.toNat ≤ 65536 * 4096 := Nat.mul_le_mul he hs
  grind

theorem memoryMapValid_spec (i : Info) :
    Keeps m s (memoryMapValid i) fun v s' => s' = s ∧ (v = true → MapSound m i) := by
  unfold memoryMapValid
  split
  next hfl =>
    split
    next => exact meets_pure ⟨rfl, fun hfs => by cases hfs⟩
    next hf =>
      simp only [not_or] at hf
      obtain ⟨-, -, hsm, -, he, hsz⟩ := hf
      split
      next hm =>
        obtain ⟨hl, -, hh⟩ := (range_is_mapped_iff _ _).mp hm
        rw [map_size_toNat he hsz] at hh
        have hs : 24 ≤ i.memory_map_entry_size.toNat := by grind
        refine (entriesValid_spec hl hs hh 0 _ (Nat.zero_add _)).mono ?_
        rintro v s' ⟨rfl, hv⟩
        refine ⟨rfl, fun ht => ⟨?_, fun _ index hi => ?_⟩⟩
        · rw [Placed, if_neg hfl]
          exact inside_window hl hh
        · exact hv ht index (Nat.zero_le index) hi
      grind [meets_pure]
  next hfl =>
    refine meets_pure ⟨rfl, fun ht => ⟨?_, fun hst => absurd hst hfl⟩⟩
    simp only [Bool.and_eq_true, beq_iff_eq] at ht
    grind [Placed]

theorem validate_v2_spec (i : Info) :
    Keeps m s (validate_v2 i) fun r s' => s' = s ∧ (r = 0 ∨ r = -1) ∧
      (r = 0 → Sound m (snapshotOf i)) := by
  unfold validate_v2
  split
  next => exact meets_pure ⟨rfl, .inr rfl, fun h => by cases h⟩
  next =>
    refine meets_bind (memoryMapValid_spec i) ?_
    rintro v _ ⟨rfl, hm⟩
    split
    next => exact meets_pure ⟨rfl, .inr rfl, fun h => by cases h⟩
    next hv =>
      split
      next => exact meets_pure ⟨rfl, .inr rfl, fun h => by cases h⟩
      next ht =>
        split
        next => exact meets_pure ⟨rfl, .inr rfl, fun h => by cases h⟩
        next =>
          split
          next => exact meets_pure ⟨rfl, .inr rfl, fun h => by cases h⟩
          next htl =>
            refine meets_pure ⟨rfl, .inl rfl, fun _ => ?_⟩
            simp only [not_or, not_not] at hv ht htl
            obtain ⟨hp, he⟩ := hm hv
            simp only [tailValid, Bool.and_eq_true] at htl
            have hs := placed_of_optional_range htl.1.1.1.1.1
            have hl := placed_of_optional_range htl.1.1.2
            rw [UInt32.toNat_toUInt64] at hs hl
            exact ⟨hp, placed_of_optional_range ht.1,
              placed_of_optional_range ht.2, hs, hl, he⟩

theorem bootinfo_capture_spec (a0 a1 : UInt64) :
    Keeps m s (bootinfo_capture a0 a1) fun r after =>
      (r = -1 ∧ after = cleared) ∨
        (r = 0 ∧ (after.versioned = 1 → Sound m after)) := by
  refine meets_modify ?_
  split
  next =>
    split
    next => exact meets_pure (.inl ⟨rfl, rfl⟩)
    next => exact meets_modify (meets_pure (.inr ⟨rfl, fun h => by cases h⟩))
  next =>
    split
    next => exact meets_pure (.inl ⟨rfl, rfl⟩)
    next hm =>
      simp only [not_or, not_not] at hm
      obtain ⟨hl, -, hh⟩ := (range_is_mapped_iff _ _).mp hm.2
      refine meets_bind (read_info_spec hl hh) ?_
      rintro i _ ⟨rfl, rfl⟩
      refine meets_bind (validate_v2_spec _) ?_
      grind [meets_pure, meets_modify]

/-! ## Blocks without a memory map -/

end

/-- For every memory and every pair of arguments the capture ends and reads only the window. When
it returns 0 with a versioned block the snapshot is sound, and when it returns -1 the snapshot is
all zero. -/
theorem the_handoff_is_sound (m : Mem) (before : Snapshot) (argument0 argument1 : UInt64) :
    (∀ r ∈ (bootinfo_capture argument0 argument1 m before).2, ∀ x, r.Has x →
      0x1000 ≤ x ∧ x < 0x40000000) ∧
    ∃ result after, (bootinfo_capture argument0 argument1 m before).1 = some (result, after) ∧
      (result = 0 ∨ result = -1) ∧
      (result = 0 → after.versioned = 1 → Sound m after) ∧
      (result = -1 → after = cleared) := by
  obtain ⟨hreads, result, after, hends, hpost⟩ :=
    bootinfo_capture_spec (m := m) (s := before) argument0 argument1
  refine ⟨fun r hr x hx => ?_, result, after, hends, ?_⟩
  · have hwindow := hreads r hr x hx
    unfold Range.Has window at hwindow
    simp only at hwindow
    omega
  · rcases hpost with ⟨rfl, hcleared⟩ | ⟨rfl, hsound⟩
    · exact ⟨.inr rfl, fun h => absurd h (by decide), fun _ => hcleared⟩
    · exact ⟨.inl rfl, fun _ => hsound, fun h => absurd h (by decide)⟩

end mvh.bootinfo
