-- The request queue of `virtio_blk.c`, with the device as a second party.
import Mathlib.Data.List.Basic

namespace mvh.virtio_blk

def VIRTQ_DESC_NEXT : UInt16 := 1
def VIRTQ_DESC_WRITE : UInt16 := 2
def VIRTIO_BLK_READ : UInt32 := 0

/-- What a descriptor points to. -/
inductive Pointer where
  | null
  | request
  | buffer (address : UInt64)
  | status
  deriving DecidableEq

structure VirtqDesc where
  address : Pointer
  length : UInt32
  flags : UInt16
  next : UInt16
  deriving DecidableEq

structure VirtioRequest where
  type : UInt32
  reserved : UInt32
  sector : UInt64
  deriving DecidableEq

/-- A request as the device finds it: the header and the descriptor of the data. -/
structure Chain where
  request : VirtioRequest
  data : VirtqDesc
  deriving DecidableEq

/-- How far `submit` has come: the request is filled in, it is posted, the index is polled
against `used_before`, the loop is left, and the call returns. -/
inductive Driver where
  | idle
  | filled
  | posted
  | polling (used_before : UInt16)
  | left (expired : Bool)
  | succeeds
  | fails
  deriving DecidableEq

/-- What the device does: nothing, it works on a chain, or it has written its status. -/
inductive Device where
  | idle
  | works (chain : Chain)
  | wrote (chain : Chain) (status : UInt8)

/-- The driver and the device with the memory that they share. -/
structure Virtio where
  queue_size : UInt16
  descriptors : Fin 3 → VirtqDesc
  available_index : UInt16
  available_ring : Nat → UInt16
  used_index : UInt16
  last_used : UInt16
  request : VirtioRequest
  request_status : UInt8
  failures : UInt64
  requests : UInt64
  driver : Driver
  device : Device
  consumed : UInt16
  submitted : List Chain
  completed : List (Chain × UInt8)

/-! ## The driver -/

def dataDescriptor (type count : UInt32) (buffer : UInt64) : VirtqDesc where
  address := .buffer buffer
  length := count * 512
  flags := VIRTQ_DESC_NEXT ||| (if type = VIRTIO_BLK_READ then VIRTQ_DESC_WRITE else 0)
  next := 2

/-- `submit` up to the last descriptor. -/
def submit (s : Virtio) (type : UInt32) (sector : UInt64) (count : UInt32) (buffer : UInt64) : Virtio :=
  if count = 0 ∨ count > 128 ∨ buffer = 0 then s
  else if s.driver ≠ .idle then s
  else
    let descriptors : Fin 3 → VirtqDesc
      | 0 => { address := .request, length := 16, flags := VIRTQ_DESC_NEXT, next := 1 }
      | 1 => dataDescriptor type count buffer
      | 2 => { address := .status, length := 1, flags := VIRTQ_DESC_WRITE, next := 0 }
    { s with
      request := { type, reserved := 0, sector }
      request_status := 0xFF
      descriptors
      driver := .filled }

def submit_step (s : Virtio) : Virtio :=
  match s.driver with
  | .idle => s
  | .filled =>
    { s with
      available_ring := Function.update s.available_ring (s.available_index.toNat % s.queue_size.toNat) 0
      available_index := s.available_index + 1
      submitted := s.submitted ++ [⟨s.request, s.descriptors 1⟩]
      driver := .posted }
  | .posted => { s with driver := .polling s.last_used }
  | .polling used_before => if s.used_index ≠ used_before then { s with driver := .left false } else s
  | .left expired => { s with driver := if expired ∨ s.request_status ≠ 0 then .fails else .succeeds }
  | .succeeds => { s with last_used := s.used_index, requests := s.requests + 1, driver := .idle }
  | .fails => { s with failures := s.failures + 1, driver := .idle }

/-- The last poll of the loop finds no change. -/
def submit_expire (s : Virtio) : Virtio :=
  match s.driver, s.device with
  | .polling used_before, .idle =>
    if s.consumed = s.available_index ∧ s.used_index = used_before then { s with driver := .left true } else s
  | _, _ => s

def returned (s : Virtio) : Option Int :=
  match s.driver with
  | .succeeds => some 0
  | .fails => some (-1)
  | _ => none

/-! ## The device -/

/-- The device takes the next posted chain, or writes the status of the one it works on, or
advances the index of the used ring. -/
def device_step (s : Virtio) (status : UInt8) : Virtio :=
  match s.device with
  | .idle =>
    if s.available_index = s.consumed then s
    else { s with consumed := s.consumed + 1, device := .works ⟨s.request, s.descriptors 1⟩ }
  | .works chain => { s with request_status := status, device := .wrote chain status }
  | .wrote chain status =>
    { s with used_index := s.used_index + 1, device := .idle, completed := s.completed ++ [(chain, status)] }

inductive Op where
  | submit (type : UInt32) (sector : UInt64) (count : UInt32) (buffer : UInt64)
  | proceed
  | expire
  | device (status : UInt8)

def Virtio.step (s : Virtio) : Op → Virtio
  | .submit type sector count buffer => virtio_blk.submit s type sector count buffer
  | .proceed => submit_step s
  | .expire => submit_expire s
  | .device status => device_step s status

def initial (queue_size : UInt16) : Virtio where
  queue_size
  descriptors _ := { address := .null, length := 0, flags := 0, next := 0 }
  available_index := 0
  available_ring _ := 0
  used_index := 0
  last_used := 0
  request := { type := 0, reserved := 0, sector := 0 }
  request_status := 0
  failures := 0
  requests := 0
  driver := .idle
  device := .idle
  consumed := 0
  submitted := []
  completed := []

end mvh.virtio_blk
