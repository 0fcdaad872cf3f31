-- Access to the configuration space of `pci.c`: through a window in memory that is mapped
-- anew for every access, or through ports.
import MvhKernel.Vmm

namespace mvh.pci

open vmm

abbrev PCI_ECAM_WINDOW : UInt64 := 0x50000000

structure Pci where
  ecam_enabled : UInt8
  start_bus : UInt8
  end_bus : UInt8
  base_address : UInt64
  config_reads : UInt64
  config_writes : UInt64
  registers : UInt64 → UInt32

def ecam_address (s : Pci) (bus slot function offset : UInt8) : UInt64 :=
  s.base_address + ((bus - s.start_bus).toUInt64 <<< 20) + (slot.toUInt64 <<< 15) +
    (function.toUInt64 <<< 12) + (offset &&& 0xFC).toUInt64

def UsesWindow (s : Pci) (bus : UInt8) : Prop :=
  s.ecam_enabled ≠ 0 ∧ bus ≥ s.start_bus ∧ bus ≤ s.end_bus

instance (s : Pci) (bus : UInt8) : Decidable (UsesWindow s bus) :=
  inferInstanceAs (Decidable (_ ∧ _ ∧ _))

def portAddress (bus slot function offset : UInt8) : UInt32 :=
  (0x80000000 : UInt32) ||| (bus.toUInt32 <<< 16) ||| (slot.toUInt32 <<< 11) ||| (function.toUInt32 <<< 8) |||
    (offset &&& 0xFC).toUInt32

section
variable {V : Type} (vmm_map_page : V → UInt64 → UInt64 → UInt64 → V × Int)

def mapRegister (vmm : V) (physical : UInt64) : V × Int :=
  vmm_map_page vmm PCI_ECAM_WINDOW (physical &&& ~~~0xFFF)
    (VMM_WRITABLE ||| VMM_CACHE_DISABLE ||| VMM_NO_EXECUTE)

/-- The parameter `ports` gives what the ports answer for an address. -/
def pci_config_read32 (ports : UInt32 → UInt32) (s : Pci) (vmm : V)
    (bus slot function offset : UInt8) : V × Pci × UInt32 :=
  if UsesWindow s bus then
    let physical := ecam_address s bus slot function offset
    match mapRegister vmm_map_page vmm physical with
    | (vmm, 0) =>
      (vmm, { s with config_reads := s.config_reads + 1 }, s.registers physical)
    | (vmm, _) => (vmm, s, 0xFFFFFFFF)
  else
    (vmm, { s with config_reads := s.config_reads + 1 },
      ports (portAddress bus slot function offset))

def pci_config_write32 (s : Pci) (vmm : V) (bus slot function offset : UInt8) (value : UInt32) :
    V × Pci :=
  if UsesWindow s bus then
    let physical := ecam_address s bus slot function offset
    match mapRegister vmm_map_page vmm physical with
    | (vmm, 0) =>
      (vmm, { s with
        config_writes := s.config_writes + 1
        registers := Function.update s.registers physical value })
    | (vmm, _) => (vmm, s)
  else (vmm, { s with config_writes := s.config_writes + 1 })

theorem pci_config_read32_vmm (p : UInt32 → UInt32) (s : Pci) (vmm : V)
    (bus sl f o : UInt8) :
    (pci_config_read32 vmm_map_page p s vmm bus sl f o).1 =
      if UsesWindow s bus then
        (mapRegister vmm_map_page vmm (ecam_address s bus sl f o)).1
      else vmm := by grind [pci_config_read32]

theorem pci_config_write32_vmm (s : Pci) (vmm : V) (bus sl f o : UInt8)
    (v : UInt32) :
    (pci_config_write32 vmm_map_page s vmm bus sl f o v).1 =
      if UsesWindow s bus then
        (mapRegister vmm_map_page vmm (ecam_address s bus sl f o)).1
      else vmm := by grind [pci_config_write32]

end

end mvh.pci
