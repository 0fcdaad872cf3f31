-- The block layer of `block.c`: the table of devices, and one-sector reads and writes.
import MvhKernel.FlatMemory
import MvhKernel.WriteList

open flat_memory write_list

namespace mvh.block

/-! ## The devices -/

structure BlockDevice where
  id : UInt32
  sector_size : UInt32
  sector_count : UInt64
  writable : UInt8
  deriving DecidableEq, Repr

def BLOCK_DEVICE_MAX : Nat := 16

/-- The registered devices. -/
structure BlockTable where
  devices : List BlockDevice
  ids : ∀ (i : Nat) (d : BlockDevice), devices[i]? = some d → d.id.toNat = i
  room : devices.length ≤ BLOCK_DEVICE_MAX

def block_register (table : BlockTable) (sector_size : UInt32) (sector_count : UInt64)
    (writable : UInt8) : Option (BlockTable × UInt32) :=
  if sector_size < 512 ∨ sector_size &&& (sector_size - 1) ≠ 0 ∨ sector_count = 0 then none
  else if h : table.devices.length < BLOCK_DEVICE_MAX then
    let id := UInt32.ofNat table.devices.length
    some ({ devices := table.devices ++ [{ id, sector_size, sector_count, writable }]
            ids := by
              intro i d hd
              have hmax : BLOCK_DEVICE_MAX = 16 := rfl
              rw [List.getElem?_append] at hd
              split at hd
              · exact table.ids i d hd
              · obtain ⟨hi, rfl⟩ := List.getElem?_eq_some_iff.mp hd
                simp only [List.length_singleton] at hi
                simp only [List.getElem_singleton, id, UInt32.toNat_ofNat']
                omega
            room := by simpa using h }, id)
  else none

def block_get (table : BlockTable) (id : UInt32) : Option BlockDevice := table.devices[id.toNat]?

theorem block_get_id {t : BlockTable} {id : UInt32} {d : BlockDevice}
    (h : block_get t id = some d) : d.id = id :=
  UInt32.toNat_inj.mp (t.ids _ _ h)

/-! ## The machine -/

/-- The disks and what is to come of the next writes. -/
structure Machine where
  table : BlockTable
  media : UInt32 → Mem
  plan : List Outcome
  written : List (UInt32 × Nat)

/-- A program that uses the block layer. -/
def Io (α : Type) := Machine → Option α × Machine

instance : Monad Io where
  pure a := fun m => (some a, m)
  bind x f := fun m =>
    match x m with
    | (some a, m') => f a m'
    | (none, m') => (none, m')

@[simp, grind =] theorem Io.pure_apply {α : Type} (a : α) (m : Machine) : (pure a : Io α) m = (some a, m) :=
  rfl

theorem Io.bind_apply {α β : Type} (x : Io α) (f : α → Io β) (m : Machine) :
    (x >>= f) m = match x m with
      | (some a, m') => f a m'
      | (none, m') => (none, m') := rfl

theorem Io.bind_some {α β : Type} {x : Io α} {m m' : Machine} {a : α} (f : α → Io β)
    (h : x m = (some a, m')) : (x >>= f) m = f a m' := by
  rw [Io.bind_apply, h]

theorem Io.bind_none {α β : Type} {x : Io α} {m m' : Machine} (f : α → Io β)
    (h : x m = (none, m')) : (x >>= f) m = (none, m') := by
  rw [Io.bind_apply, h]

def block_read (id : UInt32) (lba count : Nat) : Io (Option Mem) := fun m =>
  match block_get m.table id with
  | none => (some none, m)
  | some device =>
    if count = 0 ∨ device.sector_count.toNat ≤ lba ∨ device.sector_count.toNat - lba < count then
      (some none, m)
    else
      let size := device.sector_size.toNat
      (some (some (copy (fun _ => 0) 0 (m.media id) (lba * size) (count * size))), m)

/-- The driver puts `count` sectors of `size` bytes on the medium. -/
def Machine.write (m : Machine) (id : UInt32) (lba count size : Nat) (bytes : Mem) : Machine :=
  { m with
    media := Function.update m.media id (copy (m.media id) (lba * size) bytes 0 (count * size))
    written := m.written ++ (List.range count).map fun k => (id, lba + k) }

def Machine.withPlan (m : Machine) (plan : List Outcome) : Machine := { m with plan }

def block_write (id : UInt32) (lba count : Nat) (buffer : Mem) : Io Int := fun m =>
  match block_get m.table id with
  | none => (some (-1), m)
  | some device =>
    if count = 0 ∨ device.writable = 0 ∨ device.sector_count.toNat ≤ lba ∨
        device.sector_count.toNat - lba < count then (some (-1), m)
    else
      let size := device.sector_size.toNat
      match m.plan with
      | [] => (some 0, m.write id lba count size buffer)
      | .done :: plan => (some 0, (m.write id lba count size buffer).withPlan plan)
      | .fail :: plan => (some (-1), m.withPlan plan)
      | .cut :: plan => (none, m.withPlan plan)

/-! ## The disk, sector by sector -/

def Machine.disk (m : Machine) (id : UInt32) : Nat → Buffer 512 :=
  fun lba => Buffer.ofMem 512 (shift (m.media id) (lba * 512))

/-- The device is there and has 512-byte sectors. -/
structure HasSectors (m : Machine) (id : UInt32) (d : BlockDevice) : Prop where
  get : block_get m.table id = some d
  size : d.sector_size = 512

def Machine.writes (m : Machine) (id : UInt32) (ws : List (Nat × Buffer 512)) : Machine :=
  ws.foldl (fun m w => m.write id w.1 1 512 w.2.bytes) m

@[simp, grind =] theorem Machine.writes_nil (m : Machine) (id : UInt32) : m.writes id [] = m := rfl

@[simp, grind =] theorem Machine.writes_cons (m : Machine) (id : UInt32) (w : Nat × Buffer 512)
    (ws : List (Nat × Buffer 512)) :
    m.writes id (w :: ws) = (m.write id w.1 1 512 w.2.bytes).writes id ws := rfl

@[simp, grind =] theorem disk_withPlan (m : Machine) (p : List Outcome) (id : UInt32) :
    (m.withPlan p).disk id = m.disk id := rfl

@[simp, grind =] theorem table_withPlan (m : Machine) (p : List Outcome) :
    (m.withPlan p).table = m.table := rfl

theorem HasSectors.withPlan {m : Machine} {id : UInt32} {d : BlockDevice} (h : HasSectors m id d)
    (p : List Outcome) : HasSectors (m.withPlan p) id d :=
  ⟨h.get, h.size⟩

@[simp, grind =] theorem withPlan_withPlan (m : Machine) (p plan' : List Outcome) :
    (m.withPlan p).withPlan plan' = m.withPlan plan' := rfl

@[simp, grind =] theorem plan_withPlan (m : Machine) (plan : List Outcome) :
    (m.withPlan plan).plan = plan := rfl

theorem disk_write (m : Machine) (id : UInt32) (lba : Nat) (b : Buffer 512) :
    (m.write id lba 1 512 b.bytes).disk id = Function.update (m.disk id) lba b := by
  funext l
  by_cases hl : l = lba
  · subst hl
    rw [Function.update_self]
    apply Buffer.ext_bytes
    intro i hi
    rw [Machine.disk, Buffer.bytes_ofMem _ hi]
    simp only [shift_apply, Machine.write, Function.update_self]
    grind
  · rw [Function.update_of_ne hl]
    apply Buffer.ofMem_congr
    intro i hi
    simp only [shift_apply, Machine.write, Function.update_self]
    exact copy_outside _ _ (by omega)

theorem disk_writes (m : Machine) (id : UInt32) (ws : List (Nat × Buffer 512)) :
    (m.writes id ws).disk id = apply (m.disk id) ws := by
  induction ws generalizing m with
  | nil => rfl
  | cons w ws ih => rw [Machine.writes_cons, ih, disk_write, apply_cons]

@[simp, grind =] theorem table_writes (m : Machine) (id : UInt32) (ws : List (Nat × Buffer 512)) :
    (m.writes id ws).table = m.table := by
  induction ws generalizing m with
  | nil => rfl
  | cons w ws ih => rw [Machine.writes_cons, ih]; rfl

theorem media_writes_ne (m : Machine) {id id' : UInt32} (h : id' ≠ id)
    (ws : List (Nat × Buffer 512)) : (m.writes id ws).media id' = m.media id' := by
  induction ws generalizing m with
  | nil => rfl
  | cons w ws ih =>
    rw [Machine.writes_cons, ih]
    simp [Machine.write, Function.update_of_ne h]

theorem written_writes (m : Machine) (id : UInt32) (ws : List (Nat × Buffer 512)) :
    (m.writes id ws).written = m.written ++ ws.map fun w => (id, w.1) := by
  induction ws generalizing m with
  | nil => simp
  | cons w ws ih =>
    rw [Machine.writes_cons, ih]
    simp [Machine.write, List.range_succ]

/-! ## Writes in a row

A loop that writes sector after sector and gives up at the first failure. -/

def writeAll (id : UInt32) : List (Nat × Buffer 512) → Io Int
  | [] => pure 0
  | w :: ws => do
    let status ← block_write id w.1 1 w.2.bytes
    if status ≠ 0 then pure (-1) else writeAll id ws

def resultOf : Outcome → Option Int
  | .done => some 0
  | .fail => some (-1)
  | .cut => none

theorem block_read_eq {m : Machine} {id : UInt32} {d : BlockDevice} (h : HasSectors m id d)
    {lba : Nat} (hl : lba < d.sector_count.toNat) :
    ∃ b, block_read id lba 1 m = (some (some b), m) ∧
      Buffer.ofMem 512 b = m.disk id lba := by
  refine ⟨copy (fun _ => 0) 0 (m.media id) (lba * 512) 512, ?_, ?_⟩
  · have hn : ¬ (1 = 0 ∨ d.sector_count.toNat ≤ lba ∨ d.sector_count.toNat - lba < 1) := by omega
    unfold block_read
    simp only [h.get, h.size]
    rw [if_neg hn]
    rfl
  · apply Buffer.ofMem_congr
    grind

theorem block_write_eq {m : Machine} {id : UInt32} {d : BlockDevice} (h : HasSectors m id d)
    (hw : d.writable ≠ 0) {lba : Nat} (hl : lba < d.sector_count.toNat) (b : Mem) :
    block_write id lba 1 b m = match m.plan with
      | [] => (some 0, m.write id lba 1 512 b)
      | .done :: plan => (some 0, (m.write id lba 1 512 b).withPlan plan)
      | .fail :: plan => (some (-1), m.withPlan plan)
      | .cut :: plan => (none, m.withPlan plan) := by
  have hn : ¬ (1 = 0 ∨ d.writable = 0 ∨ d.sector_count.toNat ≤ lba ∨
      d.sector_count.toNat - lba < 1) := by grind
  unfold block_write
  simp only [h.get, h.size]
  rw [if_neg hn]
  rfl

theorem block_write_refused {m : Machine} {id : UInt32} {d : BlockDevice} (h : HasSectors m id d)
    {lba : Nat} (hl : d.writable = 0 ∨ d.sector_count.toNat ≤ lba) (b : Mem) :
    block_write id lba 1 b m = (some (-1), m) := by
  have hn : 1 = 0 ∨ d.writable = 0 ∨ d.sector_count.toNat ≤ lba ∨
      d.sector_count.toNat - lba < 1 := by grind
  unfold block_write
  simp only [h.get]
  rw [if_pos hn]

theorem writes_withPlan (m : Machine) (id : UInt32) (ws : List (Nat × Buffer 512))
    (plan : List Outcome) :
    (m.withPlan plan).writes id ws = (m.writes id ws).withPlan plan := by
  induction ws generalizing m with
  | nil => rfl
  | cons w ws ih => exact ih (m.write id w.1 1 512 w.2.bytes)

/-- The machine after it has done the writes of a row that its plan lets through. -/
def Machine.play (m : Machine) (id : UInt32) (ws : List (Nat × Buffer 512)) : Machine :=
  (m.writes id (ws.take (played m.plan ws.length))).withPlan (planAfter m.plan ws.length)

@[simp, grind =] theorem disk_play (m : Machine) (id : UInt32) (ws : List (Nat × Buffer 512)) :
    (m.play id ws).disk id = apply (m.disk id) (ws.take (played m.plan ws.length)) := by
  rw [Machine.play, disk_withPlan, disk_writes]

@[simp, grind =] theorem table_play (m : Machine) (id : UInt32) (ws : List (Nat × Buffer 512)) :
    (m.play id ws).table = m.table := by
  rw [Machine.play, table_withPlan, table_writes]

@[simp, grind =] theorem plan_play (m : Machine) (id : UInt32) (ws : List (Nat × Buffer 512)) :
    (m.play id ws).plan = planAfter m.plan ws.length := rfl

theorem written_play (m : Machine) (id : UInt32) (ws : List (Nat × Buffer 512)) :
    (m.play id ws).written =
      m.written ++ (ws.take (played m.plan ws.length)).map fun w => (id, w.1) :=
  written_writes m id _

theorem writeAll_eq {m : Machine} {id : UInt32} {d : BlockDevice} (h : HasSectors m id d)
    (hw : d.writable ≠ 0) (ws : List (Nat × Buffer 512))
    (hl : ∀ w ∈ ws, w.1 < d.sector_count.toNat) :
    writeAll id ws m = (resultOf (ending m.plan ws.length),
      m.play id ws) := by
  unfold Machine.play
  induction ws generalizing m with
  | nil => simp [writeAll, ending, played, planAfter, resultOf, Machine.withPlan]
  | cons w ws ih =>
    have hlw := hl w List.mem_cons_self
    have hlr := fun v hv => hl v (List.mem_cons_of_mem w hv)
    unfold writeAll
    rw [Io.bind_apply, block_write_eq h hw hlw]
    rcases hp : m.plan with _ | ⟨o, plan⟩
    · have ih := ih (m := m.write id w.1 1 512 w.2.bytes) ⟨h.get, h.size⟩ hlr
      have hp' : (m.write id w.1 1 512 w.2.bytes).plan = [] := hp
      simp only [hp', ending_nil, played_nil] at ih
      simp [ih, ending, played, planAfter, List.take_of_length_le]
      cases ws <;> rfl
    · cases o
      · have ih := ih (m := (m.write id w.1 1 512 w.2.bytes).withPlan plan) ⟨h.get, h.size⟩ hlr
        simp [ih, ending, played, planAfter, writes_withPlan]
      · simp [ending, played, planAfter, resultOf]
      · simp [ending, played, planAfter, resultOf]

theorem writeAll_part {m : Machine} {id : UInt32} {d : BlockDevice} (h : HasSectors m id d)
    (ws : List (Nat × Buffer 512)) :
    ∃ k plan, (writeAll id ws m).2 = (m.writes id (ws.take k)).withPlan plan := by
  induction ws generalizing m with
  | nil => exact ⟨0, m.plan, rfl⟩
  | cons w ws ih =>
    unfold writeAll
    rw [Io.bind_apply]
    by_cases hl : d.writable = 0 ∨ d.sector_count.toNat ≤ w.1
    · rw [block_write_refused h hl]
      exact ⟨0, m.plan, rfl⟩
    · rw [not_or, Nat.not_le] at hl
      rw [block_write_eq h hl.1 hl.2]
      rcases m.plan with _ | ⟨o, plan⟩
      · obtain ⟨k, p', hk⟩ := ih (m := m.write id w.1 1 512 w.2.bytes) ⟨h.get, h.size⟩
        exact ⟨k + 1, p', hk⟩
      · cases o
        · obtain ⟨k, p', hk⟩ :=
            ih (m := (m.write id w.1 1 512 w.2.bytes).withPlan plan) ⟨h.get, h.size⟩
          rw [writes_withPlan, withPlan_withPlan] at hk
          exact ⟨k + 1, p', hk⟩
        · exact ⟨0, plan, rfl⟩
        · exact ⟨0, plan, rfl⟩

theorem writeAll_refused {m : Machine} {id : UInt32} {d : BlockDevice} (h : HasSectors m id d)
    {w : Nat × Buffer 512} (hl : d.writable = 0 ∨ d.sector_count.toNat ≤ w.1)
    (ws : List (Nat × Buffer 512)) : writeAll id (w :: ws) m = (some (-1), m) := by
  unfold writeAll
  rw [Io.bind_some _ (block_write_refused h hl _)]
  rfl

theorem writeAll_first {m : Machine} {id : UInt32} {d : BlockDevice} (h : HasSectors m id d)
    (hw : d.writable ≠ 0) (hp : m.plan = []) {w : Nat × Buffer 512}
    (hl : w.1 < d.sector_count.toNat) (ws : List (Nat × Buffer 512)) :
    (id, w.1) ∈ (writeAll id (w :: ws) m).2.written.drop m.written.length := by
  have hf : block_write id w.1 1 w.2.bytes m = (some 0, m.write id w.1 1 512 w.2.bytes) := by
    rw [block_write_eq h hw hl, hp]
  obtain ⟨k, plan, hk⟩ :=
    writeAll_part (m := m.write id w.1 1 512 w.2.bytes) ⟨h.get, h.size⟩ ws
  have hr : (writeAll id (w :: ws) m).2 =
      ((m.write id w.1 1 512 w.2.bytes).writes id (ws.take k)).withPlan plan := by
    rw [← hk, writeAll, Io.bind_some _ hf]
    rfl
  have hlg : (writeAll id (w :: ws) m).2.written =
      m.written ++ ((w :: ws).take (k + 1)).map fun w => (id, w.1) := by
    rw [hr]
    exact written_writes m id ((w :: ws).take (k + 1))
  rw [hlg, List.drop_left]
  simp

theorem writeAll_append (id : UInt32) (ws vs : List (Nat × Buffer 512)) :
    writeAll id (ws ++ vs) = (do
      let s ← writeAll id ws
      if s ≠ 0 then pure (-1) else writeAll id vs) := by
  induction ws with
  | nil => rfl
  | cons w ws ih =>
    funext m
    rw [List.cons_append, writeAll, writeAll, Io.bind_apply, Io.bind_apply, Io.bind_apply]
    rcases block_write id w.1 1 w.2.bytes m with ⟨_ | s, m'⟩
    · rfl
    · by_cases hs : s = 0
      · simp only [hs, ne_eq, not_true_eq_false, if_false, ih, Io.bind_apply]
      · simp [hs]

end mvh.block
