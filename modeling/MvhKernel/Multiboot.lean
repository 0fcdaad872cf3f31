-- The 32-bit bootstrap (`boot32.S`): it makes a BootInfo V2 block from what a Multiboot
-- loader hands over.
import MvhKernel.BootInfo

open flat_memory scan

namespace mvh.multiboot

open bootinfo

/-! ## The model -/

abbrev bootstrap_info_flags : Nat := 4
abbrev bootstrap_framebuffer_address : Nat := 16
abbrev bootstrap_framebuffer_width : Nat := 18
abbrev bootstrap_framebuffer_height : Nat := 19
abbrev bootstrap_framebuffer_pitch : Nat := 20
abbrev bootstrap_framebuffer_bpp : Nat := 21
/-- The data of the bootstrap: the block and `bootstrap_memory_kib`. -/
structure Data where
  block : List UInt32
  memory_kib : UInt32

def Data.move (d : Data) (label : Nat) (v : UInt32) : Data := { d with block := d.block.set label v }

def Data.orFlags (d : Data) (v : UInt32) : Data :=
  { d with block := d.block.modify bootstrap_info_flags (· ||| v) }

/-- The loop that looks for the end of the command line, with the turns that are left before the
counter is 4095. -/
def commandLineLength (m : Mem) (edi : UInt32) : Nat → UInt32 → UInt32
  | 0, ecx => ecx
  | left + 1, ecx =>
    if m (edi + ecx).toNat = 0 then ecx else commandLineLength m edi left (ecx + 1)

def framebuffer (m : Mem) (esi : Nat) (d : Data) : Data :=
  if load32 m esi &&& 0x1000 = 0 ∨ m (esi + 109) ≠ 1 ∨ (m (esi + 108) ≠ 24 ∧ m (esi + 108) ≠ 32)
  then d
  else
    ((((((d.move bootstrap_framebuffer_address (load32 m (esi + 88))).move
      (bootstrap_framebuffer_address + 1) (load32 m (esi + 92))).move
      bootstrap_framebuffer_width (load32 m (esi + 100))).move
      bootstrap_framebuffer_height (load32 m (esi + 104))).move
      bootstrap_framebuffer_pitch (load32 m (esi + 96))).move
      bootstrap_framebuffer_bpp (m (esi + 108)).toUInt32).orFlags 0x08

def blockWords (flags memory low high width height pitch bpp line lineSize : UInt32) :
    List UInt32 :=
  [0x4948564D, 0x324F464E, 2, 136, flags, 0, memory, 0, 0, 0, 0, 0, 0, 0, 0, 0, low, high, width,
    height, pitch, bpp, 0, 0, 0, 0, 0, 0, 0, 0, line, 0, lineSize, 0]

def blockInfo (flags memory low high width height pitch bpp line lineSize : UInt32) : Info :=
  ⟨MAGIC, 2, 136, flags.toUInt64, memory.toUInt64, 0, 0, 0, 0, 0,
    ⟨low.toUInt64 ||| (high.toUInt64 <<< 32), width, height, pitch, bpp, 0, 0, 0, 0⟩, 0, 0, 0,
    line.toUInt64, lineSize, 0⟩

def HasLine (m : Mem) (ebx : Nat) : Prop := load32 m ebx &&& 4 ≠ 0 ∧ load32 m (ebx + 16) ≠ 0

/-- The loader has set up a framebuffer of a kind that the bootstrap takes: direct colours with
24 or 32 bits a pixel. -/
def HasFramebuffer (m : Mem) (ebx : Nat) : Prop :=
  load32 m ebx &&& 0x1000 ≠ 0 ∧ m (ebx + 109) = 1 ∧ (m (ebx + 108) = 24 ∨ m (ebx + 108) = 32)

instance (m : Mem) (ebx : Nat) : Decidable (HasLine m ebx) := inferInstanceAs (Decidable (_ ∧ _))

instance (m : Mem) (ebx : Nat) : Decidable (HasFramebuffer m ebx) :=
  inferInstanceAs (Decidable (_ ∧ _ ∧ (_ ∨ _)))

def reportedLine (m : Mem) (ebx : Nat) : UInt32 × UInt32 :=
  if HasLine m ebx then (load32 m (ebx + 16), commandLineLength m (load32 m (ebx + 16)) 4095 0)
  else (0, 0)

/-- The fields of the framebuffer, all 0 when there is none that the bootstrap takes. -/
def reportedFramebuffer (m : Mem) (ebx : Nat) : Framebuffer :=
  if HasFramebuffer m ebx then
    ⟨load64 m (ebx + 88), load32 m (ebx + 100), load32 m (ebx + 104), load32 m (ebx + 96),
      (m (ebx + 108)).toUInt32, 0, 0, 0, 0⟩
  else noFramebuffer

def reportedFlags (m : Mem) (ebx : Nat) : UInt32 :=
  0x40 ||| (if HasLine m ebx then 0x20 else 0) ||| (if HasFramebuffer m ebx then 0x08 else 0)

def reportedInfo (m : Mem) (ebx : Nat) : Info :=
  ⟨MAGIC, 2, 136, (reportedFlags m ebx).toUInt64, (load32 m (ebx + 8) + 1024).toUInt64, 0, 0, 0,
    0, 0, reportedFramebuffer m ebx, 0, 0, 0, (reportedLine m ebx).1.toUInt64,
    (reportedLine m ebx).2, 0⟩

def IsText (m : Mem) (a n : Nat) : Prop := (∀ i < n, m (a + i) ≠ 0) ∧ m (a + n) = 0

/-- What a loader hands over: enough upper memory, a command line of at most 4095 bytes in the
window if there is one, and no framebuffer or one that is not empty. -/
structure Handed (m : Mem) (ebx : Nat) : Prop where
  memory : load32 m ebx &&& 1 ≠ 0
  upper : 3072 ≤ (load32 m (ebx + 8)).toNat ∧ (load32 m (ebx + 8)).toNat < 2 ^ 32 - 1024
  line : HasLine m ebx → ∃ n ≤ 4095, IsText m (load32 m (ebx + 16)).toNat n ∧
    0x1000 ≤ (load32 m (ebx + 16)).toNat ∧ (load32 m (ebx + 16)).toNat + n < 0x40000000
  framebuffer : load32 m ebx &&& 0x1000 ≠ 0 → load64 m (ebx + 88) ≠ 0 ∧
    load32 m (ebx + 100) ≠ 0 ∧ load32 m (ebx + 104) ≠ 0 ∧ load32 m (ebx + 96) ≠ 0

/-- Where the linker puts the block: aligned, in the kernel image, which begins at 2 MiB and ends
in the first GiB. -/
structure Linked (block : UInt64) : Prop where
  aligned : block &&& 7 = 0
  image : 0x200000 ≤ block.toNat ∧ block.toNat + 136 ≤ 0x40000000

section
variable {m : Mem} {ebx : Nat}

theorem Handed.memory_toNat (h : Handed m ebx) :
    (load32 m (ebx + 8) + 1024).toUInt64.toNat = (load32 m (ebx + 8)).toNat + 1024 := by
  have hu := h.upper
  grind

theorem flags_unknown (m : Mem) (ebx : Nat) :
    (reportedFlags m ebx).toUInt64 &&& ~~~KNOWN_FLAGS = 0 ∧
      (reportedFlags m ebx).toUInt64 &&& FLAG_MEMORY_MAP = 0 ∧
      (reportedFlags m ebx).toUInt64 &&& FLAG_ACPI_RSDP = 0 ∧
      (reportedFlags m ebx).toUInt64 &&& FLAG_SMBIOS = 0 ∧
      (reportedFlags m ebx).toUInt64 &&& FLAG_RANDOM_SEED = 0 := by
  unfold reportedFlags
  split_ifs <;> decide

theorem flags_framebuffer (m : Mem) (ebx : Nat) :
    (reportedFlags m ebx).toUInt64 &&& FLAG_FRAMEBUFFER =
      if HasFramebuffer m ebx then 0x08 else 0 := by
  unfold reportedFlags
  split_ifs <;> decide

/-! The parts of the validator on the block of the bootstrap. -/

theorem Handed.headerValid (h : Handed m ebx) :
    bootinfo.headerValid (reportedInfo m ebx) = true := by
  have hu := h.upper
  have hm := h.memory_toNat
  grind [UInt64.le_iff_toNat_le, bootinfo.headerValid, reportedInfo, flags_unknown, Nat.le_trans]

theorem Handed.framebufferValid (h : Handed m ebx) :
    bootinfo.framebufferValid (reportedInfo m ebx) = true := by
  simp only [bootinfo.framebufferValid, reportedInfo, flags_framebuffer]
  by_cases hf : HasFramebuffer m ebx
  · obtain ⟨ha, hw, hh, hp⟩ := h.framebuffer hf.1
    have hd : (m (ebx + 108)).toUInt32 = 24 ∨ (m (ebx + 108)).toUInt32 = 32 := by
      rcases hf.2.2 with hd | hd
      · exact .inl (by rw [hd]; rfl)
      · exact .inr (by rw [hd]; rfl)
    grind [reportedFramebuffer]
  · simp [reportedFramebuffer, hf]

end

end mvh.multiboot
