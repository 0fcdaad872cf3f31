-- The walk over the SMBIOS table (smbios.c).
import MvhKernel.Scan
import Mathlib.Logic.Function.Basic

open flat_memory scan

namespace mvh.smbios

def SMBIOS_TEXT_MAX : UInt32 := 64
def SMBIOS_MAX_TABLE_SIZE : UInt32 := 1024 * 1024

/-- The fields of `smbios_info_t` that are texts. -/
inductive Text
  | bios_vendor
  | bios_version
  | system_manufacturer
  | system_product
  | system_version
  | system_serial
  | baseboard_manufacturer
  | baseboard_product
deriving DecidableEq

/-- The part of `smbios_info_t` that the walk fills. -/
structure Info where
  parsed_structures : UInt32 := 0
  bios_structures : UInt32 := 0
  system_structures : UInt32 := 0
  baseboard_structures : UInt32 := 0
  processor_structures : UInt32 := 0
  memory_device_structures : UInt32 := 0
  populated_memory_devices : UInt32 := 0
  installed_memory_mib : UInt64 := 0
  maximum_memory_speed_mhz : UInt32 := 0
  texts : Text → Nat → Char := fun _ _ => '\x00'

def Info.setText (s : Info) (output : Text) (chars : Nat → Char) : Info :=
  { s with texts := Function.update s.texts output chars }

def Info.write (output : Text) (index : Nat) (c : Char) (s : Info) : Info :=
  s.setText output (Function.update (s.texts output) index c)

def printable (value : UInt8) : Char := if 0x20 ≤ value ∧ value ≤ 0x7E then Char.ofNat value.toNat else '?'

/-! ## Texts -/

/-- The loop of `copy_text`, from an index on with the characters left. -/
def copyChars (output : Text) (text : Nat) : Nat → Nat → Scan Info Unit
  | _, 0 => pure ()
  | index, left + 1 => do
    let value ← byte (text + index)
    modify (Info.write output index (printable value))
    copyChars output text (index + 1) left

def copy_text (output : Text) (text : Nat) (length : UInt32) : Scan Info Unit := do
  let count := if length ≥ SMBIOS_TEXT_MAX then SMBIOS_TEXT_MAX - 1 else length
  copyChars output text 0 count.toNat
  modify (Info.write output count.toNat '\x00')

/-- The inner loop of `copy_structure_string`, which stops at a NUL or at the end. -/
def textEnd : Nat → Nat → Scan Info Nat
  | cursor, 0 => pure cursor
  | cursor, left + 1 => do
    let value ← byte cursor
    if value ≠ 0 then textEnd (cursor + 1) left else pure cursor

def stringTurn (output : Text) (finish : Nat) (wanted : UInt8) (at_string : Nat × UInt8) :
    Scan Info ((Nat × UInt8) ⊕ Unit) :=
  let (cursor, current_index) := at_string
  if ¬ cursor < finish then pure (.inr ())
  else do
    let value ← byte cursor
    if ¬ value ≠ 0 then pure (.inr ())
    else do
      let start := cursor
      let cursor ← textEnd cursor (finish - cursor)
      if current_index = wanted then do
        copy_text output start (UInt32.ofNat (cursor - start))
        pure (.inr ())
      else pure (.inl (if cursor < finish then cursor + 1 else cursor, current_index + 1))

section
variable (fuel : Nat)

def copy_structure_string (output : Text) (strings finish : Nat) (wanted : UInt8) : Scan Info Unit := do
  modify (Info.write output 0 '\x00')
  if wanted = 0 then pure () else loop (stringTurn output finish wanted) fuel (strings, 1)

/-! ## Structures -/

def parse_memory_device (data : Nat) (length : UInt8) : Scan Info Unit := do
  modify fun s => { s with memory_device_structures := s.memory_device_structures + 1 }
  if length < 14 then pure ()
  else do
    let size ← word16 (data + 12)
    if size = 0 ∨ size = 0xFFFF then pure ()
    else do
      let size_mib : UInt64 ← (do
        if size = 0x7FFF ∧ length ≥ 32 then do
          let extended ← word32 (data + 28)
          pure (extended &&& 0x7FFFFFFF).toUInt64
        else if size &&& 0x8000 ≠ 0 then pure ((size &&& 0x7FFF).toUInt64 / 1024)
        else pure size.toUInt64)
      modify fun s => { s with populated_memory_devices := s.populated_memory_devices + 1 }
      modify fun s => if s.installed_memory_mib ≤ 0xFFFFFFFFFFFFFFFF - size_mib then
        { s with installed_memory_mib := s.installed_memory_mib + size_mib } else s
      let speed : UInt16 ← (if length ≥ 23 then word16 (data + 21) else pure 0)
      modify fun s => if speed.toUInt32 > s.maximum_memory_speed_mhz then
        { s with maximum_memory_speed_mhz := speed.toUInt32 } else s

/-- What the walk does with a structure whose strings end at `cursor`. -/
def takeStructure (data : Nat) (type length : UInt8) (strings cursor : Nat) : Scan Info Unit :=
  let copy (output : Text) (place : Nat) : Scan Info Unit := do
    let wanted ← byte (data + place)
    copy_structure_string fuel output strings cursor wanted
  if type = 0 then do
    modify fun s => { s with bios_structures := s.bios_structures + 1 }
    if length ≥ 6 then do
      copy .bios_vendor 4
      copy .bios_version 5
    else pure ()
  else if type = 1 then do
    modify fun s => { s with system_structures := s.system_structures + 1 }
    if length ≥ 8 then do
      copy .system_manufacturer 4
      copy .system_product 5
      copy .system_version 6
      copy .system_serial 7
    else pure ()
  else if type = 2 then do
    modify fun s => { s with baseboard_structures := s.baseboard_structures + 1 }
    if length ≥ 6 then do
      copy .baseboard_manufacturer 4
      copy .baseboard_product 5
    else pure ()
  else if type = 4 then modify fun s => { s with processor_structures := s.processor_structures + 1 }
  else if type = 17 then parse_memory_device data length
  else pure ()

/-- The search for two NULs, from a place on with the bytes left up to the end of the table. -/
def stringsEnd : Nat → Nat → Scan Info Nat
  | cursor, 0 => pure cursor
  | cursor, 1 => pure cursor
  | cursor, left + 2 => do
    let first ← byte cursor
    if first ≠ 0 then stringsEnd (cursor + 1) (left + 1)
    else do
      let second ← byte (cursor + 1)
      if second ≠ 0 then stringsEnd (cursor + 1) (left + 1) else pure cursor

/-- A turn of the loop over the structures. -/
def structureTurn (bytes : Nat) (size announced offset : UInt32) : Scan Info (UInt32 ⊕ Option Bool) :=
  if ¬ offset + 4 ≤ size then pure (.inr (some false))
  else do
    let data := bytes + offset.toNat
    let finish := bytes + size.toNat
    let type ← byte data
    let length ← byte (data + 1)
    if length < 4 ∨ length.toUInt32 > size - offset then pure (.inr none)
    else do
      let strings := data + length.toNat
      let cursor ← stringsEnd strings (finish - strings)
      if cursor + 1 ≥ finish then pure (.inr none)
      else do
        modify fun s => { s with parsed_structures := s.parsed_structures + 1 }
        takeStructure fuel data type length strings cursor
        let offset := UInt32.ofNat (cursor + 2 - bytes)
        if type = 127 then pure (.inr (some true))
        else do
          let result ← get
          if announced ≠ 0 ∧ result.parsed_structures > announced then pure (.inr none)
          else pure (.inl offset)

def smbios_parse_table_blob (bytes : Nat) (size announced : UInt32) : Scan Info Int :=
  if bytes = 0 ∨ size < 6 ∨ size > SMBIOS_MAX_TABLE_SIZE then pure (-1)
  else do
    match ← loop (structureTurn fuel bytes size announced) fuel 0 with
    | none => pure (-1)
    | some found_end =>
      if found_end = false ∧ announced = 0 then pure (-1)
      else do
        let result ← get
        pure (if announced ≠ 0 ∧ result.parsed_structures ≠ announced then -1 else 0)

end

end mvh.smbios
