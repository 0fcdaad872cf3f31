-- The ACPI tables (`acpi.c`): the root pointer, the root table with its fallback from
-- XSDT to RSDT, and the six table parsers.
import MvhKernel.Scan

open flat_memory ranges scan

namespace mvh.acpi

abbrev ACPI_MAX_TABLES : UInt32 := 64
abbrev ACPI_MAX_TABLE_SIZE : UInt32 := 1024 * 1024
abbrev ACPI_MAX_CPUS : UInt32 := 256
abbrev ACPI_MAX_IOAPICS : UInt32 := 16
abbrev ACPI_MAX_OVERRIDES : UInt32 := 32
abbrev ACPI_MAX_MCFG_SEGMENTS : UInt32 := 32

structure CpuInfo where
  processor_uid : UInt32 := 0
  apic_id : UInt32 := 0
  enabled : Bool := false
  online_capable : Bool := false
  x2apic : Bool := false

structure IoapicInfo where
  id : UInt8 := 0
  address : UInt32 := 0
  global_interrupt_base : UInt32 := 0

structure InterruptOverride where
  bus : UInt8 := 0
  source_irq : UInt8 := 0
  global_interrupt : UInt32 := 0
  flags : UInt16 := 0

structure McfgSegment where
  base_address : UInt64 := 0
  segment_group : UInt16 := 0
  start_bus : UInt8 := 0
  end_bus : UInt8 := 0

structure ResetRegister where
  address_space : UInt8
  bit_width : UInt8
  bit_offset : UInt8
  access_size : UInt8
  address : UInt64

structure Status where
  available : UInt8 := 0
  revision : UInt8 := 0
  uses_xsdt : Bool := false
  table_count : UInt32 := 0
  rejected_tables : UInt32 := 0
  unknown_tables : UInt32 := 0
  lapic_address : UInt64 := 0
  lapic_flags : UInt32 := 0
  local_apics : UInt32 := 0
  local_x2apics : UInt32 := 0
  ioapics : UInt32 := 0
  interrupt_overrides : UInt32 := 0
  nmi_sources : UInt32 := 0
  local_apic_nmis : UInt32 := 0
  mcfg_segments : UInt32 := 0
  srat_cpu_affinities : UInt32 := 0
  srat_memory_affinities : UInt32 := 0
  hpet_address : UInt64 := 0
  pm_timer_port : UInt32 := 0
  reset_register : ResetRegister := ⟨0, 0, 0, 0, 0⟩
  reset_value : UInt8 := 0
  slit_localities : UInt64 := 0

/-- The static data. -/
structure Acpi where
  state : Status := {}
  registry : Nat → UInt64 := fun _ => 0
  cpus : Nat → CpuInfo := fun _ => {}
  ioapics : Nat → IoapicInfo := fun _ => {}
  overrides : Nat → InterruptOverride := fun _ => {}
  mcfg_segments : Nat → McfgSegment := fun _ => {}
  stored_cpus : UInt32 := 0
  stored_ioapics : UInt32 := 0
  stored_overrides : UInt32 := 0
  stored_mcfg_segments : UInt32 := 0

def put {α : Type} (array : Nat → α) (index : UInt32) (value : α) : Nat → α :=
  Function.update array index.toNat value

/-! ## Checks -/

/-- The end of the identity-mapped memory, from the BootInfo flags. -/
def identityLimit (flags : UInt64) : UInt64 := if flags &&& 0x40 ≠ 0 then 0x100000000 else 0x40000000

def mapped_range (flags address : UInt64) (length : UInt32) : Bool :=
  address ≥ 0x1000 && length != 0 && address < identityLimit flags &&
    length.toUInt64 ≤ identityLimit flags - address

def bytes_equal : Nat → List UInt8 → Scan Acpi Bool
  | _, [] => pure true
  | left, right :: rest => do
    let value ← byte left
    if value ≠ right then pure false else bytes_equal (left + 1) rest

def sumBytes : Nat → Nat → UInt8 → Scan Acpi UInt8
  | _, 0, sum => pure sum
  | a, left + 1, sum => do
    let value ← byte a
    sumBytes (a + 1) left (sum + value)

def acpi_checksum_valid (data : Nat) (length : UInt32) : Scan Acpi Bool :=
  if data = 0 ∨ length = 0 then pure false
  else do
    let sum ← sumBytes data length.toNat 0
    pure (sum == 0)

structure RsdpInfo where
  revision : UInt8
  root_address : UInt64
  uses_xsdt : Bool
  oem_id : List UInt8

def rsdpSignature : List UInt8 := [0x52, 0x53, 0x44, 0x20, 0x50, 0x54, 0x52, 0x20]

def readBytes : Nat → Nat → Scan Acpi (List UInt8)
  | _, 0 => pure []
  | a, left + 1 => do
    let value ← byte a
    let rest ← readBytes (a + 1) left
    pure (value :: rest)

/-- The result when the function returns 0, and nothing when it returns -1. -/
def acpi_validate_rsdp_blob (data : Nat) (size : UInt32) : Scan Acpi (Option RsdpInfo) :=
  if data = 0 ∨ size < 20 then pure none
  else do
    let known ← bytes_equal data rsdpSignature
    if ¬ known then pure none
    else do
      let valid ← acpi_checksum_valid data 20
      if ¬ valid then pure none
      else do
        let revision ← byte (data + 15)
        let oem_id ← readBytes (data + 9) 6
        let rsdt ← word32 (data + 16)
        if revision ≥ 2 then
          if size < 36 then pure none
          else do
            let length ← word32 (data + 20)
            if length < 36 ∨ length > size then pure none
            else do
              let valid ← acpi_checksum_valid data length
              if ¬ valid then pure none
              else do
                let xsdt ← word64 (data + 24)
                let root := if xsdt ≠ 0 then xsdt else rsdt.toUInt64
                pure (if root ≠ 0 then some ⟨revision, root, xsdt ≠ 0, oem_id⟩ else none)
        else pure (if rsdt ≠ 0 then some ⟨revision, rsdt.toUInt64, false, oem_id⟩ else none)

def hasSignature (data : Nat) : Option (List UInt8) → Scan Acpi Bool
  | none => pure true
  | some text => bytes_equal data text

def acpi_validate_sdt_blob (data : Nat) (available : UInt32) (signature : Option (List UInt8)) :
    Scan Acpi Int :=
  if data = 0 ∨ available < 36 then pure (-1)
  else do
    let length ← word32 (data + 4)
    if length < 36 ∨ length > available ∨ length > ACPI_MAX_TABLE_SIZE then pure (-1)
    else do
      let known ← hasSignature data signature
      if ¬ known then pure (-1)
      else do
        let valid ← acpi_checksum_valid data length
        pure (if valid then 0 else -1)

/-! ## The parsers -/

def signature (text : String) : List UInt8 := text.toList.map fun c => UInt8.ofNat c.toNat

def madtRecord (data : Nat) (type length : UInt8) : Scan Acpi Unit := do
  let s ← get
  if type = 0 ∧ length ≥ 8 then do
    modify fun s => { s with state := { s.state with local_apics := s.state.local_apics + 1 } }
    if s.stored_cpus < ACPI_MAX_CPUS then do
      let uid ← byte (data + 2)
      let id ← byte (data + 3)
      let flags ← byte (data + 4)
      modify fun s => { s with
        cpus := put s.cpus s.stored_cpus ⟨uid.toUInt32, id.toUInt32, flags &&& 1 ≠ 0, flags &&& 2 ≠ 0, false⟩
        stored_cpus := s.stored_cpus + 1 }
    else pure ()
  else if type = 1 ∧ length ≥ 12 then do
    modify fun s => { s with state := { s.state with ioapics := s.state.ioapics + 1 } }
    if s.stored_ioapics < ACPI_MAX_IOAPICS then do
      let id ← byte (data + 2)
      let address ← word32 (data + 4)
      let base ← word32 (data + 8)
      modify fun s => { s with
        ioapics := put s.ioapics s.stored_ioapics ⟨id, address, base⟩
        stored_ioapics := s.stored_ioapics + 1 }
    else pure ()
  else if type = 2 ∧ length ≥ 10 then do
    modify fun s =>
      { s with state := { s.state with interrupt_overrides := s.state.interrupt_overrides + 1 } }
    if s.stored_overrides < ACPI_MAX_OVERRIDES then do
      let bus ← byte (data + 2)
      let irq ← byte (data + 3)
      let interrupt ← word32 (data + 4)
      let flags ← word16 (data + 8)
      modify fun s => { s with
        overrides := put s.overrides s.stored_overrides ⟨bus, irq, interrupt, flags⟩
        stored_overrides := s.stored_overrides + 1 }
    else pure ()
  else if type = 3 ∧ length ≥ 8 then
    modify fun s => { s with state := { s.state with nmi_sources := s.state.nmi_sources + 1 } }
  else if type = 4 ∧ length ≥ 6 then
    modify fun s =>
      { s with state := { s.state with local_apic_nmis := s.state.local_apic_nmis + 1 } }
  else if type = 5 ∧ length ≥ 12 then do
    let address ← word64 (data + 4)
    modify fun s => { s with state := { s.state with lapic_address := address } }
  else if type = 9 ∧ length ≥ 16 then do
    modify fun s => { s with state := { s.state with local_x2apics := s.state.local_x2apics + 1 } }
    if s.stored_cpus < ACPI_MAX_CPUS then do
      let id ← word32 (data + 4)
      let flags ← byte (data + 8)
      let uid ← word32 (data + 12)
      modify fun s => { s with
        cpus := put s.cpus s.stored_cpus ⟨uid, id, flags &&& 1 ≠ 0, flags &&& 2 ≠ 0, true⟩
        stored_cpus := s.stored_cpus + 1 }
    else pure ()
  else if type = 10 ∧ length ≥ 12 then
    modify fun s =>
      { s with state := { s.state with local_apic_nmis := s.state.local_apic_nmis + 1 } }
  else pure ()

def sratRecord (type length : UInt8) : Scan Acpi Unit :=
  if (type = 0 ∧ length ≥ 16) ∨ (type = 2 ∧ length ≥ 24) then
    modify fun s =>
      { s with state := { s.state with srat_cpu_affinities := s.state.srat_cpu_affinities + 1 } }
  else if type = 1 ∧ length ≥ 40 then
    modify fun s => { s with
      state := { s.state with srat_memory_affinities := s.state.srat_memory_affinities + 1 } }
  else pure ()

/-- One turn of the loop over the records of a table, which `parse_madt` and `parse_srat` share:
it ends with what the function returns. -/
def recordTurn (header : Nat) (record : Nat → UInt8 → UInt8 → Scan Acpi Unit) (offset : UInt32) :
    Scan Acpi (UInt32 ⊕ Int) := do
  let total ← word32 (header + 4)
  if ¬ offset + 2 ≤ total then pure (.inr (if offset = total then 0 else -1))
  else do
    let type ← byte (header + offset.toNat)
    let length ← byte (header + offset.toNat + 1)
    if length < 2 ∨ length.toUInt32 > total - offset then pure (.inr (-1))
    else do
      record (header + offset.toNat) type length
      pure (.inl (offset + length.toUInt32))

section
variable (fuel : Nat)

def parse_madt (header : Nat) : Scan Acpi Int := do
  let total ← word32 (header + 4)
  if total < 44 then pure (-1)
  else do
    let address ← word32 (header + 36)
    let flags ← word32 (header + 40)
    modify fun s => { s with
      state := { s.state with lapic_address := address.toUInt64, lapic_flags := flags } }
    loop (recordTurn header madtRecord) fuel 44

def parse_fadt (header : Nat) : Scan Acpi Int := do
  let total ← word32 (header + 4)
  if total < 80 then pure (-1)
  else do
    let port ← word32 (header + 76)
    modify fun s => { s with state := { s.state with pm_timer_port := port } }
    if total ≥ 129 then do
      let space ← byte (header + 116)
      let width ← byte (header + 117)
      let offset ← byte (header + 118)
      let access ← byte (header + 119)
      let address ← word64 (header + 120)
      let value ← byte (header + 128)
      modify fun s => { s with state := { s.state with
        reset_register := ⟨space, width, offset, access, address⟩, reset_value := value } }
      pure 0
    else pure 0

def parse_hpet (header : Nat) : Scan Acpi Int := do
  let total ← word32 (header + 4)
  if total < 56 then pure (-1)
  else do
    let address ← word64 (header + 44)
    modify fun s => { s with state := { s.state with hpet_address := address } }
    let space ← byte (header + 40)
    pure (if space = 0 ∧ address ≠ 0 then 0 else -1)

def mcfgTurn (header : Nat) (offset : UInt32) : Scan Acpi (UInt32 ⊕ Int) := do
  let total ← word32 (header + 4)
  if ¬ offset < total then pure (.inr 0)
  else do
    let base ← word64 (header + offset.toNat)
    let segment ← word16 (header + offset.toNat + 8)
    let start_bus ← byte (header + offset.toNat + 10)
    let end_bus ← byte (header + offset.toNat + 11)
    if base = 0 ∨ base &&& 0xFFFFF ≠ 0 ∨ start_bus > end_bus then pure (.inr (-1))
    else do
      modify fun s => { s with state := { s.state with mcfg_segments := s.state.mcfg_segments + 1 } }
      modify fun s =>
        if s.stored_mcfg_segments < ACPI_MAX_MCFG_SEGMENTS then
          { s with
            mcfg_segments := put s.mcfg_segments s.stored_mcfg_segments ⟨base, segment, start_bus, end_bus⟩
            stored_mcfg_segments := s.stored_mcfg_segments + 1 }
        else s
      pure (.inl (offset + 16))

def parse_mcfg (header : Nat) : Scan Acpi Int := do
  let total ← word32 (header + 4)
  if total < 44 ∨ (total - 44) % 16 ≠ 0 then pure (-1)
  else loop (mcfgTurn header) fuel 44

def parse_srat (header : Nat) : Scan Acpi Int := do
  let total ← word32 (header + 4)
  if total < 48 then pure (-1)
  else loop (recordTurn header fun _ => sratRecord) fuel 48

def parse_slit (header : Nat) : Scan Acpi Int := do
  let total ← word32 (header + 4)
  if total < 44 then pure (-1)
  else do
    let count ← word64 (header + 36)
    if count = 0 ∨ count > 4096 ∨ count > 0xFFFFFFFFFFFFFFFF / count then pure (-1)
    else if count * count ≠ total.toUInt64 - 44 then pure (-1)
    else do
      modify fun s => { s with state := { s.state with slit_localities := count } }
      pure 0

/-- The parser of a table by its signature, and none that is just registered. -/
def parsers : List (List UInt8 × (Nat → Scan Acpi Int)) :=
  [(signature "APIC", parse_madt fuel), (signature "FACP", parse_fadt),
    (signature "HPET", parse_hpet), (signature "MCFG", parse_mcfg fuel),
    (signature "SRAT", parse_srat fuel), (signature "SLIT", parse_slit)]

def bySignature {α : Type} (header : Nat) (missing : α) : List (List UInt8 × α) → Scan Acpi α
  | [] => pure missing
  | (text, value) :: rest => do
    let same ← bytes_equal header text
    if same then pure value else bySignature header missing rest

def known_signature (header : Nat) : Scan Acpi Bool :=
  bySignature header false
    (["APIC", "FACP", "HPET", "MCFG", "SRAT", "SLIT", "DMAR", "IVRS", "SPCR", "TPM2"].map
      fun text => (signature text, true))

def parse_known (header : Nat) : Scan Acpi Int := do
  let parse ← bySignature header (fun _ => pure 0) (parsers fuel)
  parse header

def parseOrCount (known : Bool) (header : Nat) : Scan Acpi Int :=
  if known then parse_known fuel header
  else do
    modify fun s =>
      { s with state := { s.state with unknown_tables := s.state.unknown_tables + 1 } }
    pure 0

/-! ## Tables and the root -/

variable (flags : UInt64)

def register_table (address : UInt64) : Scan Acpi Int :=
  if ¬ mapped_range flags address 36 then pure (-1)
  else do
    let length ← word32 (address.toNat + 4)
    if ¬ mapped_range flags address length then pure (-1)
    else do
      let result ← acpi_validate_sdt_blob address.toNat length none
      let before ← get
      if result ≠ 0 ∨ before.state.table_count ≥ ACPI_MAX_TABLES then pure (-1)
      else do
        let known ← known_signature address.toNat
        let parsed ← parseOrCount fuel known address.toNat
        if parsed ≠ 0 then do
          -- what the arrays have got meanwhile stays there, behind the counters
          modify fun s => { s with
            state := before.state
            stored_cpus := before.stored_cpus
            stored_ioapics := before.stored_ioapics
            stored_overrides := before.stored_overrides
            stored_mcfg_segments := before.stored_mcfg_segments }
          pure (-1)
        else do
          modify fun s => { s with
            registry := put s.registry s.state.table_count address
            state := { s.state with table_count := s.state.table_count + 1 } }
          pure 0

/-- The jump back to `retry_root`, with the number of jumps so far, or the return of -1. -/
def fallBack (rsdp : Nat) (info : RsdpInfo) (jumps : Nat) :
    Scan Acpi ((RsdpInfo × Nat) ⊕ (Option RsdpInfo × Nat)) :=
  if ¬ info.uses_xsdt then pure (.inr (none, jumps))
  else do
    let rsdt ← word32 (rsdp + 16)
    if rsdt ≠ 0 then
      pure (.inl ({ info with root_address := rsdt.toUInt64, uses_xsdt := false }, jumps + 1))
    else pure (.inr (none, jumps))

/-- `acpi_init` from `retry_root` on, up to the root table that it takes. -/
def rootTurn (rsdp : Nat) (at_root : RsdpInfo × Nat) :
    Scan Acpi ((RsdpInfo × Nat) ⊕ (Option RsdpInfo × Nat)) :=
  let (info, jumps) := at_root
  if ¬ mapped_range flags info.root_address 36 then fallBack rsdp info jumps
  else do
    let length ← word32 (info.root_address.toNat + 4)
    if ¬ mapped_range flags info.root_address length then fallBack rsdp info jumps
    else do
      let result ← acpi_validate_sdt_blob info.root_address.toNat length
        (some (signature (if info.uses_xsdt then "XSDT" else "RSDT")))
      if result ≠ 0 then fallBack rsdp info jumps else pure (.inr (some info, jumps))

def entry_size (uses_xsdt : Bool) : UInt32 := if uses_xsdt then 8 else 4

def rootEntry (root : Nat) (uses_xsdt : Bool) (index : Nat) : Scan Acpi UInt64 :=
  let entry := root + 36 + index * (entry_size uses_xsdt).toNat
  if uses_xsdt then word64 entry
  else do
    let address ← word32 entry
    pure address.toUInt64

/-- The loop over the entries of the root table, from an index on with the entries left. -/
def registerEntries (root : Nat) (uses_xsdt : Bool) : Nat → Nat → Scan Acpi Unit
  | _, 0 => pure ()
  | index, left + 1 => do
    let address ← rootEntry root uses_xsdt index
    let result ← register_table fuel flags address
    modify fun s => if result ≠ 0 then
      { s with state := { s.state with rejected_tables := s.state.rejected_tables + 1 } } else s
    registerEntries root uses_xsdt (index + 1) left

def readRoot (info : RsdpInfo) : Scan Acpi Int := do
  let length ← word32 (info.root_address.toNat + 4)
  if (length - 36) % entry_size info.uses_xsdt ≠ 0 then pure (-1)
  else do
    modify fun s => { s with
      state := { s.state with revision := info.revision, uses_xsdt := info.uses_xsdt } }
    registerEntries fuel flags info.root_address.toNat info.uses_xsdt 0
      ((length - 36) / entry_size info.uses_xsdt).toNat
    modify fun s => { s with state := { s.state with available := 1 } }
    pure 0

/-- The size of the root pointer, or nothing when it does not lie in mapped memory. -/
def rsdpSize (rsdp_address : UInt64) : Scan Acpi (Option UInt32) := do
  let revision ← byte (rsdp_address.toNat + 15)
  if revision ≥ 2 then
    if ¬ mapped_range flags rsdp_address 36 then pure none
    else do
      let length ← word32 (rsdp_address.toNat + 20)
      if length < 36 ∨ length > 4096 ∨ ¬ mapped_range flags rsdp_address length then pure none
      else pure (some length)
  else pure (some 20)

/-- The value that the function returns, and the number of jumps to `retry_root`. -/
def acpi_init (rsdp_address : UInt64) : Scan Acpi (Int × Nat) := do
  modify fun _ => {}
  if ¬ mapped_range flags rsdp_address 20 then pure (-1, 0)
  else do
    let size ← rsdpSize flags rsdp_address
    match size with
    | none => pure (-1, 0)
    | some size => do
      let info ← acpi_validate_rsdp_blob rsdp_address.toNat size
      match info with
      | none => pure (-1, 0)
      | some info => do
        let root ← loop (rootTurn flags rsdp_address.toNat) fuel (info, 0)
        match root with
        | (none, jumps) => pure (-1, jumps)
        | (some info, jumps) => do
          let result ← readRoot fuel flags info
          pure (result, jumps)

end

/-! ## What callers see -/

structure TableInfo where
  signature : List UInt8
  length : UInt32
  revision : UInt8
  address : UInt64

def acpi_status (s : Acpi) : Status := s.state

def acpi_table_count (s : Acpi) : UInt32 := s.state.table_count

/-- An entry of an array with a counter. -/
def infoAt {α : Type} (array : Nat → α) (stored index : UInt32) : Option α :=
  if index ≥ stored then none else some (array index.toNat)

def acpi_table_info (m : Mem) (s : Acpi) (index : UInt32) : Option TableInfo :=
  (infoAt s.registry s.state.table_count index).map fun address =>
    ⟨slice m address.toNat 4, load32 m (address.toNat + 4), m (address.toNat + 8), address⟩

/-- The loop of `acpi_find_table`, from an index on with the tables left. -/
def findTable (m : Mem) (s : Acpi) (text : List UInt8) : Nat → Nat → UInt32 → Option UInt64
  | 0, _, _ => none
  | left + 1, index, nth =>
    if slice m (s.registry index).toNat 4 = text then
      if nth = 0 then some (s.registry index) else findTable m s text left (index + 1) (nth - 1)
    else findTable m s text left (index + 1) nth

def acpi_find_table (m : Mem) (s : Acpi) (text : List UInt8) (nth : UInt32) : Option UInt64 :=
  findTable m s text s.state.table_count.toNat 0 nth

def acpi_cpu_count (s : Acpi) : UInt32 := s.stored_cpus

def acpi_cpu_info (s : Acpi) (index : UInt32) : Option CpuInfo := infoAt s.cpus s.stored_cpus index

def acpi_ioapic_count (s : Acpi) : UInt32 := s.stored_ioapics

def acpi_ioapic_info (s : Acpi) (index : UInt32) : Option IoapicInfo := infoAt s.ioapics s.stored_ioapics index

def acpi_interrupt_override_count (s : Acpi) : UInt32 := s.stored_overrides

def acpi_interrupt_override_info (s : Acpi) (index : UInt32) : Option InterruptOverride :=
  infoAt s.overrides s.stored_overrides index

def acpi_mcfg_segment_count (s : Acpi) : UInt32 := s.stored_mcfg_segments

def acpi_mcfg_segment_info (s : Acpi) (index : UInt32) : Option McfgSegment :=
  infoAt s.mcfg_segments s.stored_mcfg_segments index

end mvh.acpi
