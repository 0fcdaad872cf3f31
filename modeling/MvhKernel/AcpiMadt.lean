-- The interrupt table (MADT) as a format: after 44 bytes it is a sequence of records,
-- each with a type and its own length in front.
import MvhKernel.AcpiRegister
import MvhKernel.ByteLists
import MvhKernel.Pieces

open flat_memory scan roster pieces

namespace mvh.acpi

/-! ## The records -/

/-- A record has its type in the first byte and its length, which is at least 2, in the second. -/
def recordSize : List UInt8 → Option Nat
  | _ :: length :: rest =>
    if 2 ≤ length.toNat ∧ length.toNat ≤ rest.length + 2 then some length.toNat else none
  | _ => none

theorem recordSize_some {l : List UInt8} {n : Nat} (h : recordSize l = some n) :
    ∃ type length rest, l = type :: length :: rest ∧ n = length.toNat ∧ 2 ≤ n ∧ n ≤ l.length := by
  rcases l with _ | ⟨type, _ | ⟨length, rest⟩⟩
  · cases h
  · cases h
  · have hf : 2 ≤ length.toNat ∧ length.toNat ≤ rest.length + 2 := by
      by_contra hf
      rw [recordSize, if_neg hf] at h
      cases h
    rw [recordSize, if_pos hf] at h
    obtain rfl := Option.some.inj h
    exact ⟨type, length, rest, rfl, rfl, hf⟩

def recordFormat : Format UInt8 where
  size := recordSize
  pos h := by
    obtain ⟨_, _, _, _, _, htwo, _⟩ := recordSize_some h
    omega
  le h := by
    obtain ⟨_, _, _, _, _, _, hle⟩ := recordSize_some h
    exact hle
  stable h rest := by
    obtain ⟨type, length, more, rfl, rfl, htwo, hle⟩ := recordSize_some h
    obtain ⟨k, hk⟩ := Nat.exists_eq_add_of_le htwo
    have htake : (type :: length :: more).take length.toNat = type :: length :: more.take k := by
      rw [hk, Nat.add_comm]
      rfl
    rw [htake, List.cons_append, List.cons_append, recordSize, List.length_append, List.length_take]
    rw [List.length_cons, List.length_cons] at hle
    exact if_pos ⟨htwo, by omega⟩

section
variable (record : List UInt8)

def cpuOf : Option CpuInfo :=
  let bytes := ofList record
  if bytes 0 = 0 ∧ 8 ≤ record.length then
    some ⟨(bytes 2).toUInt32, (bytes 3).toUInt32, bytes 4 &&& 1 ≠ 0, bytes 4 &&& 2 ≠ 0, false⟩
  else if bytes 0 = 9 ∧ 16 ≤ record.length then
    some ⟨load32 bytes 12, load32 bytes 4, bytes 8 &&& 1 ≠ 0, bytes 8 &&& 2 ≠ 0, true⟩
  else none

def ioapicOf : Option IoapicInfo :=
  let bytes := ofList record
  if bytes 0 = 1 ∧ 12 ≤ record.length then some ⟨bytes 2, load32 bytes 4, load32 bytes 8⟩ else none

def overrideOf : Option InterruptOverride :=
  let bytes := ofList record
  if bytes 0 = 2 ∧ 10 ≤ record.length then some ⟨bytes 2, bytes 3, load32 bytes 4, load16 bytes 8⟩ else none

def lapicOf : Option UInt64 :=
  let bytes := ofList record
  if bytes 0 = 5 ∧ 12 ≤ record.length then some (load64 bytes 4) else none

end

/-! ## One record -/

/-- What a list of records changes, from one state to the other. -/
structure Recorded (s : Acpi) (records : List (List UInt8)) (s' : Acpi) : Prop where
  cpus : Takes ACPI_MAX_CPUS (cpuRoster s) (records.filterMap cpuOf) (cpuRoster s')
  ioapics : Takes ACPI_MAX_IOAPICS (ioapicRoster s) (records.filterMap ioapicOf) (ioapicRoster s')
  overrides : Takes ACPI_MAX_OVERRIDES (overrideRoster s) (records.filterMap overrideOf) (overrideRoster s')
  lapic : s'.state.lapic_address = (records.filterMap lapicOf).getLast?.getD s.state.lapic_address

section
variable {s s' s'' : Acpi} {records more : List (List UInt8)}

theorem Recorded.nothing (s : Acpi) : Recorded s [] s :=
  ⟨.nothing rfl rfl, .nothing rfl rfl, .nothing rfl rfl, rfl⟩

theorem Recorded.trans (h1 : Recorded s records s') (h2 : Recorded s' more s'') :
    Recorded s (records ++ more) s'' := by
  constructor
  · rw [List.filterMap_append]
    exact h1.cpus.trans h2.cpus
  · rw [List.filterMap_append]
    exact h1.ioapics.trans h2.ioapics
  · rw [List.filterMap_append]
    exact h1.overrides.trans h2.overrides
  simp [List.filterMap_append, List.getLast?_append, h2.lapic, h1.lapic]

end

/-- The record at an address, with what stands there. -/
structure RecordAt (m : Mem) (data : Nat) (type length : UInt8) (record : List UInt8) : Prop where
  eq : record = slice m data length.toNat
  type : m data = type
  two : 2 ≤ length.toNat

section
variable {m : Mem} {s : Acpi} {data : Nat} {type length : UInt8} {record : List UInt8}
  (h : RecordAt m data type length record)
include h

theorem RecordAt.length_eq : record.length = length.toNat := by
  rw [h.eq, slice_length]

theorem RecordAt.byte_zero : ofList record 0 = type := by
  have ht := h.two
  rw [h.eq, ofList_slice m data (by omega)]
  exact h.type

theorem RecordAt.byte {i : Nat} (hi : i < length.toNat) : ofList record i = m (data + i) := by
  rw [h.eq, ofList_slice m data hi]

theorem RecordAt.word16 {i : Nat} (hi : i + 2 ≤ length.toNat) : load16 (ofList record) i = load16 m (data + i) := by
  rw [h.eq, load16_ofList_slice m data hi]

theorem RecordAt.word32 {i : Nat} (hi : i + 4 ≤ length.toNat) : load32 (ofList record) i = load32 m (data + i) := by
  rw [h.eq, load32_ofList_slice m data hi]

theorem RecordAt.word64 {i : Nat} (hi : i + 8 ≤ length.toNat) : load64 (ofList record) i = load64 m (data + i) := by
  rw [h.eq, load64_ofList_slice m data hi]

theorem RecordAt.kinds :
    cpuOf record =
      (if type = 0 ∧ length ≥ 8 then
        some ⟨(m (data + 2)).toUInt32, (m (data + 3)).toUInt32, m (data + 4) &&& 1 ≠ 0, m (data + 4) &&& 2 ≠ 0, false⟩
      else if type = 9 ∧ length ≥ 16 then
        some ⟨load32 m (data + 12), load32 m (data + 4), m (data + 8) &&& 1 ≠ 0, m (data + 8) &&& 2 ≠ 0, true⟩
      else none) ∧
    ioapicOf record =
      (if type = 1 ∧ length ≥ 12 then some ⟨m (data + 2), load32 m (data + 4), load32 m (data + 8)⟩ else none) ∧
    overrideOf record =
      (if type = 2 ∧ length ≥ 10 then
        some ⟨m (data + 2), m (data + 3), load32 m (data + 4), load16 m (data + 8)⟩ else none) ∧
    lapicOf record = if type = 5 ∧ length ≥ 12 then some (load64 m (data + 4)) else none := by
  have hle (k : UInt8) : (length ≥ k) = (k.toNat ≤ length.toNat) := propext UInt8.le_iff_toNat_le
  have hcs {β : Type} {c : Prop} [Decidable c] {x y z : β} (hc : c → x = y) :
      (if c then x else z) = if c then y else z := by grind
  simp only [hle]
  refine ⟨?_, ?_, ?_, ?_⟩
  · rw [cpuOf, h.byte_zero, h.length_eq]
    refine (hcs fun hc => ?_).trans (congrArg _ (hcs fun hc => ?_))
    · have hl : 8 ≤ length.toNat := hc.2
      rw [h.byte (by omega), h.byte (by omega), h.byte (by omega)]
    · have hl : 16 ≤ length.toNat := hc.2
      rw [h.word32 (by omega), h.word32 (by omega), h.byte (by omega)]
  · rw [ioapicOf, h.byte_zero, h.length_eq]
    refine hcs fun hc => ?_
    have hl : 12 ≤ length.toNat := hc.2
    rw [h.byte (by omega), h.word32 (by omega), h.word32 (by omega)]
  · rw [overrideOf, h.byte_zero, h.length_eq]
    refine hcs fun hc => ?_
    have hl : 10 ≤ length.toNat := hc.2
    rw [h.byte (by omega), h.byte (by omega), h.word32 (by omega), h.word16 (by omega)]
  · rw [lapicOf, h.byte_zero, h.length_eq]
    refine hcs fun hc => ?_
    have hl : 12 ≤ length.toNat := hc.2
    rw [h.word64 (by omega)]

end

theorem filterMap_one {α β : Type} (f : α → Option β) (a : α) : [a].filterMap f = (f a).toList := by
  cases h : f a with
  | none => simp [h]
  | some b => simp [h]

section
variable {s s' : Acpi} {record : List UInt8}

theorem Recorded.one
    (hc : Takes ACPI_MAX_CPUS (cpuRoster s) (cpuOf record).toList (cpuRoster s'))
    (hi : Takes ACPI_MAX_IOAPICS (ioapicRoster s) (ioapicOf record).toList (ioapicRoster s'))
    (ho : Takes ACPI_MAX_OVERRIDES (overrideRoster s) (overrideOf record).toList (overrideRoster s'))
    (hlapic : s'.state.lapic_address = (lapicOf record).getD s.state.lapic_address) : Recorded s [record] s' := by
  refine ⟨?_, ?_, ?_, ?_⟩
  · rwa [filterMap_one]
  · rwa [filterMap_one]
  · rwa [filterMap_one]
  grind

theorem Recorded.unlisted (hcp : cpuOf record = none) (hip : ioapicOf record = none)
    (hov : overrideOf record = none) (hc : cpuRoster s' = cpuRoster s)
    (hi : ioapicRoster s' = ioapicRoster s) (ho : overrideRoster s' = overrideRoster s)
    (hlapic : s'.state.lapic_address = (lapicOf record).getD s.state.lapic_address) : Recorded s [record] s' := by
  refine .one ?_ ?_ ?_ hlapic
  · rw [hcp, hc]
    exact .nothing rfl rfl
  · rw [hip, hi]
    exact .nothing rfl rfl
  · rw [hov, ho]
    exact .nothing rfl rfl

variable (hlapicOf : lapicOf record = none) (hlapic : s'.state.lapic_address = s.state.lapic_address)
include hlapicOf hlapic

theorem Recorded.cpu {cpu : CpuInfo} (hcp : cpuOf record = some cpu) (hip : ioapicOf record = none)
    (hov : overrideOf record = none)
    (hc : Takes ACPI_MAX_CPUS (cpuRoster s) [cpu] (cpuRoster s'))
    (hi : ioapicRoster s' = ioapicRoster s) (ho : overrideRoster s' = overrideRoster s) :
    Recorded s [record] s' := by
  refine .one ?_ ?_ ?_ ?_
  · rw [hcp]
    exact hc
  · rw [hip, hi]
    exact .nothing rfl rfl
  · rw [hov, ho]
    exact .nothing rfl rfl
  · rw [hlapicOf]
    exact hlapic

theorem Recorded.ioapic {ioapic : IoapicInfo} (hcp : cpuOf record = none) (hip : ioapicOf record = some ioapic)
    (hov : overrideOf record = none) (hc : cpuRoster s' = cpuRoster s)
    (hi : Takes ACPI_MAX_IOAPICS (ioapicRoster s) [ioapic] (ioapicRoster s'))
    (ho : overrideRoster s' = overrideRoster s) : Recorded s [record] s' := by
  refine .one ?_ ?_ ?_ ?_
  · rw [hcp, hc]
    exact .nothing rfl rfl
  · rw [hip]
    exact hi
  · rw [hov, ho]
    exact .nothing rfl rfl
  · rw [hlapicOf]
    exact hlapic

theorem Recorded.override {override : InterruptOverride} (hcp : cpuOf record = none)
    (hip : ioapicOf record = none) (hov : overrideOf record = some override)
    (hc : cpuRoster s' = cpuRoster s) (hi : ioapicRoster s' = ioapicRoster s)
    (ho : Takes ACPI_MAX_OVERRIDES (overrideRoster s) [override] (overrideRoster s')) :
    Recorded s [record] s' := by
  refine .one ?_ ?_ ?_ ?_
  · rw [hcp, hc]
    exact .nothing rfl rfl
  · rw [hip, hi]
    exact .nothing rfl rfl
  · rw [hov]
    exact ho
  · rw [hlapicOf]
    exact hlapic

end

abbrev Ends {α : Type} (m : Mem) (s : Acpi) (x : Scan Acpi α) (post : α → Acpi → Prop) : Prop :=
  Meets (fun _ => True) m s x post

section
variable {m : Mem} {s : Acpi} {data : Nat} {type length : UInt8} {record : List UInt8}

theorem madtRecord_recorded (h : RecordAt m data type length record) :
    Ends m s (madtRecord data type length) fun _ s' => Recorded s [record] s' := by
  obtain ⟨hc, hi, ho, hlapic⟩ := h.kinds
  refine meets_get ?_
  by_cases h0 : type = 0 ∧ length ≥ 8
  · rw [if_pos h0] at hc ⊢
    obtain ⟨rfl, _⟩ := h0
    refine meets_modify ?_
    by_cases hr : s.stored_cpus < ACPI_MAX_CPUS
    · rw [if_pos hr]
      refine meets_byte trivial (meets_byte trivial (meets_byte trivial (meets_change ?_)))
      exact .cpu hlapic rfl hc hi ho (.store hr _ _) rfl rfl
    · rw [if_neg hr]
      exact meets_pure (.cpu hlapic rfl hc hi ho (.skip hr _ _) rfl rfl)
  rw [if_neg h0] at hc ⊢
  by_cases h1 : type = 1 ∧ length ≥ 12
  · rw [if_pos h1] at hi ⊢
    obtain ⟨rfl, _⟩ := h1
    refine meets_modify ?_
    by_cases hr : s.stored_ioapics < ACPI_MAX_IOAPICS
    · rw [if_pos hr]
      refine meets_byte trivial (meets_word32 trivial (meets_word32 trivial (meets_change ?_)))
      exact .ioapic hlapic rfl hc hi ho rfl (.store hr _ _) rfl
    · rw [if_neg hr]
      exact meets_pure (.ioapic hlapic rfl hc hi ho rfl (.skip hr _ _) rfl)
  rw [if_neg h1] at hi ⊢
  by_cases h2 : type = 2 ∧ length ≥ 10
  · rw [if_pos h2] at ho ⊢
    obtain ⟨rfl, _⟩ := h2
    refine meets_modify ?_
    by_cases hr : s.stored_overrides < ACPI_MAX_OVERRIDES
    · rw [if_pos hr]
      refine meets_byte trivial (meets_byte trivial (meets_word32 trivial (meets_word16 trivial (meets_change ?_))))
      exact .override hlapic rfl hc hi ho rfl rfl (.store hr _ _)
    · rw [if_neg hr]
      exact meets_pure (.override hlapic rfl hc hi ho rfl rfl (.skip hr _ _))
  rw [if_neg h2] at ho ⊢
  by_cases h3 : type = 3 ∧ length ≥ 8
  · rw [if_pos h3]
    obtain ⟨rfl, _⟩ := h3
    exact meets_change (.unlisted hc hi ho rfl rfl rfl (by rw [hlapic]; rfl))
  rw [if_neg h3]
  by_cases h4 : type = 4 ∧ length ≥ 6
  · rw [if_pos h4]
    obtain ⟨rfl, _⟩ := h4
    exact meets_change (.unlisted hc hi ho rfl rfl rfl (by rw [hlapic]; rfl))
  rw [if_neg h4]
  by_cases h5 : type = 5 ∧ length ≥ 12
  · rw [if_pos h5] at hlapic ⊢
    obtain ⟨rfl, _⟩ := h5
    exact meets_word64 trivial
      (meets_change (.unlisted hc hi ho rfl rfl rfl (by rw [hlapic]; rfl)))
  rw [if_neg h5] at hlapic ⊢
  by_cases h9 : type = 9 ∧ length ≥ 16
  · rw [if_pos h9] at hc ⊢
    refine meets_modify ?_
    by_cases hr : s.stored_cpus < ACPI_MAX_CPUS
    · rw [if_pos hr]
      refine meets_word32 trivial (meets_byte trivial (meets_word32 trivial (meets_change ?_)))
      exact .cpu hlapic rfl hc hi ho (.store hr _ _) rfl rfl
    · rw [if_neg hr]
      exact meets_pure (.cpu hlapic rfl hc hi ho (.skip hr _ _) rfl rfl)
  rw [if_neg h9] at hc ⊢
  by_cases h10 : type = 10 ∧ length ≥ 12
  · rw [if_pos h10]
    exact meets_change (.unlisted hc hi ho rfl rfl rfl (by rw [hlapic]; rfl))
  rw [if_neg h10]
  exact meets_pure (.unlisted hc hi ho rfl rfl rfl (by rw [hlapic]; rfl))

end

/-! ## The table -/

theorem recordSize_slice (m : Mem) (a n : Nat) :
    recordSize (slice m a n) =
      if 2 ≤ n ∧ 2 ≤ (m (a + 1)).toNat ∧ (m (a + 1)).toNat ≤ n then some (m (a + 1)).toNat else none := by
  by_cases hn : 2 ≤ n
  · obtain ⟨left, rfl⟩ := Nat.exists_eq_add_of_le hn
    have hf : slice m a 2 = [m a, m (a + 1)] := rfl
    rw [slice_append, hf, List.cons_append, List.cons_append, List.nil_append, recordSize, slice_length]
    grind
  · rw [if_neg fun h => hn h.1]
    rcases (by omega : n = 0 ∨ n = 1) with rfl | rfl
    · rfl
    · rfl

section
variable {m : Mem} {s : Acpi} {header fuel : Nat}

theorem records_meet {record : Nat → UInt8 → UInt8 → Scan Acpi Unit} (st : UInt32)
    (hl : List (List UInt8) → Acpi → Prop)
    (hr : ∀ s d data type length b, RecordAt m data type length b → hl d s →
      Ends m s (record data type length) fun _ s' => hl (d ++ [b]) s')
    (hsm : (load32 m (header + 4)).toNat ≤ 1024 * 1024)
    (hst : st.toNat ≤ (load32 m (header + 4)).toNat) (hf : 1024 * 1024 < fuel) (hs : hl [] s) :
    let bd := slice m (header + st.toNat) ((load32 m (header + 4)).toNat - st.toNat)
    Ends m s (loop (recordTurn header record) fuel st) fun r s' =>
      (r = 0 ∧ ∃ records, recordFormat.Splits bd records ∧ hl records s') ∨
        (r = -1 ∧ ∀ records, ¬ recordFormat.Splits bd records) := by
  generalize hL : load32 m (header + 4) = total at *
  intro bd
  have ht : (2 : UInt32).toNat = 2 := rfl
  -- the records so far, and the b that are left
  let invariant (o : UInt32) (s : Acpi) : Prop := o.toNat ≤ total.toNat ∧ ∃ d,
    recordFormat.Cuts bd d (slice m (header + o.toNat) (total.toNat - o.toNat)) ∧ hl d s
  refine meets_loop invariant (fun o => total.toNat - o.toNat) ?_ ⟨hst, [], cuts_nil bd, hs⟩ (by omega)
  rintro o s ⟨hle, d, hc, hd⟩
  have hsz : recordFormat.size (slice m (header + o.toNat) (total.toNat - o.toNat)) = _ :=
    recordSize_slice m (header + o.toNat) (total.toNat - o.toNat)
  have hn : (o + 2).toNat = o.toNat + 2 := by
    rw [UInt32.toNat_add, ht]
    omega
  refine meets_word32 trivial ?_
  rw [hL]
  refine meets_ite (fun he => meets_pure ?_) fun hm => meets_byte trivial (meets_byte trivial ?_)
  · -- less than two b are left
    rw [UInt32.le_iff_toNat_le, hn] at he
    rw [if_neg (by omega)] at hsz
    by_cases hls : o = total
    · left
      rw [hls, Nat.sub_self, slice_zero] at hc
      exact ⟨if_pos hls, d, hc, hd⟩
    · right
      have hne : o.toNat ≠ total.toNat := fun heq => hls (UInt32.toNat_inj.mp heq)
      have hlf : slice m (header + o.toNat) (total.toNat - o.toNat) ≠ [] :=
        List.ne_nil_of_length_pos (by rw [slice_length]; omega)
      exact ⟨if_neg hls, fun records => hc.not_splits hsz hlf⟩
  rw [not_not, UInt32.le_iff_toNat_le, hn] at hm
  have hlf : slice m (header + o.toNat) (total.toNat - o.toNat) ≠ [] :=
    List.ne_nil_of_length_pos (by rw [slice_length]; omega)
  generalize hln : m (header + o.toNat + 1) = length at *
  have hrm : (total - o).toNat = total.toNat - o.toNat :=
    UInt32.toNat_sub_of_le _ _ (UInt32.le_iff_toNat_le.mpr hle)
  refine meets_ite (fun hb => meets_pure ?_) fun hg => ?_
  · -- the length is too small, or goes beyond the table
    right
    refine ⟨rfl, fun records => hc.not_splits ?_ hlf⟩
    grind
  · obtain ⟨hlw, hh⟩ := not_or.mp hg
    have hlw : 2 ≤ length.toNat := UInt8.le_iff_toNat_le.mp (UInt8.not_lt.mp hlw)
    have hh := UInt32.le_iff_toNat_le.mp (UInt32.not_lt.mp hh)
    rw [hrm, UInt8.toNat_toUInt32] at hh
    rw [if_pos ⟨by omega, hlw, hh⟩] at hsz
    have hcut' := hc.snoc hsz
    rw [slice_take m _ hh, slice_drop m _ hh] at hcut'
    refine meets_bind (hr s d _ _ _ _ ⟨rfl, rfl, hlw⟩ hd) fun _ s' hs' => meets_pure ?_
    have hsu : (o + length.toUInt32).toNat = o.toNat + length.toNat := by grind
    dsimp only
    refine ⟨⟨by omega, _, ?_, hs'⟩, by omega⟩
    rw [hsu, ← Nat.add_assoc, ← Nat.sub_sub]
    exact hcut'

theorem infoAt_eq_kept {α : Type} (a : Nat → α) (st index : UInt32) (sn : Nat) :
    infoAt a st index = (Roster.kept ⟨a, st, sn⟩)[index.toNat]? := by
  unfold infoAt Roster.kept
  grind

end

/-- A table of 44 bytes or more is parsed with success just when the bytes after them are records. Then
the CPUs, the I/O APICs and the overrides are those of the records, in their order, behind what was
there and up to the limits, and the address of the local APICs is the last one of a record, or the one
in the header. -/
theorem the_madt_is_read_as_records (m : Mem) (s : Acpi) (header fuel : Nat) (hfuel : 1024 * 1024 < fuel)
    (hlow : 44 ≤ (load32 m (header + 4)).toNat) (hhigh : (load32 m (header + 4)).toNat ≤ 1024 * 1024) :
    let body := slice m (header + 44) ((load32 m (header + 4)).toNat - 44)
    ∃ result s', (parse_madt fuel header m s).1 = some (result, s') ∧ (result = 0 ∨ result = -1) ∧
      (result = 0 ↔ ∃ records, recordFormat.Splits body records) ∧
      ∀ records, recordFormat.Splits body records →
        (∀ index, acpi_cpu_info s' index =
          ((cpuRoster s).kept ++ (records.filterMap cpuOf).take (256 - s.stored_cpus.toNat))[index.toNat]?) ∧
        (∀ index, acpi_ioapic_info s' index =
          ((ioapicRoster s).kept ++ (records.filterMap ioapicOf).take (16 - s.stored_ioapics.toNat))[index.toNat]?) ∧
        (∀ index, acpi_interrupt_override_info s' index =
          ((overrideRoster s).kept ++
            (records.filterMap overrideOf).take (32 - s.stored_overrides.toNat))[index.toNat]?) ∧
        s'.state.lapic_address =
          (records.filterMap lapicOf).getLast?.getD (load32 m (header + 36)).toUInt64 := by
  intro body
  -- the parser first takes the two fields behind the header
  let s0 : Acpi := { s with state := { s.state with
    lapic_address := (load32 m (header + 36)).toUInt64, lapic_flags := load32 m (header + 40) } }
  have hparse : Ends m s (parse_madt fuel header) fun result s' =>
      (result = 0 ∧ ∃ records, recordFormat.Splits body records ∧ Recorded s0 records s') ∨
        (result = -1 ∧ ∀ records, ¬ recordFormat.Splits body records) := by
    refine meets_word32 trivial (meets_ite (fun hshort => ?_) fun hlong => ?_)
    · exact absurd (UInt32.lt_iff_toNat_lt.mp hshort) (by show ¬ _ < 44; omega)
    · refine meets_word32 trivial (meets_word32 trivial (meets_modify ?_))
      refine records_meet 44 (Recorded s0) ?_ hhigh hlow hfuel (.nothing s0)
      intro s done data type length bytes hbytes hdone
      exact (madtRecord_recorded hbytes).mono fun _ s' hs' => hdone.trans hs'
  obtain ⟨result, s', hrun, hresult⟩ := hparse.ends
  refine ⟨result, s', hrun, ?_, ?_, ?_⟩
  · exact hresult.imp And.left And.left
  · rcases hresult with ⟨rfl, records, hsplits, _⟩ | ⟨rfl, hnone⟩
    · exact iff_of_true rfl ⟨records, hsplits⟩
    · exact iff_of_false (by decide) fun ⟨records, hsplits⟩ => hnone records hsplits
  · intro records hsplits
    rcases hresult with ⟨_, others, hothers, hrecorded⟩ | ⟨_, hnone⟩
    · obtain rfl := hsplits.unique hothers
      refine ⟨fun index => ?_, fun index => ?_, fun index => ?_, hrecorded.lapic⟩
      · exact (infoAt_eq_kept _ _ index _).trans (congrArg (·[index.toNat]?) hrecorded.cpus)
      · exact (infoAt_eq_kept _ _ index _).trans (congrArg (·[index.toNat]?) hrecorded.ioapics)
      · exact (infoAt_eq_kept _ _ index _).trans (congrArg (·[index.toNat]?) hrecorded.overrides)
    · exact absurd hsplits (hnone records)

/-- A table with one local APIC: processor 1 with the id 2, enabled. -/
def smallMadt : Mem := fun i =>
  match i with
  | 4 => 52
  | 45 => 8
  | 46 => 1
  | 47 => 2
  | 48 => 1
  | _ => 0

theorem one_cpu_is_read :
    ∃ s', (parse_madt 2000000 0 smallMadt {}).1 = some (0, s') ∧
      acpi_cpu_info s' 0 = some ⟨1, 2, true, false, false⟩ := by
  obtain ⟨result, s', hrun, _, hzero, hlists⟩ :=
    the_madt_is_read_as_records smallMadt {} 0 2000000 (by decide) (by decide) (by decide)
  have hsplits : recordFormat.Splits (slice smallMadt (0 + 44) ((load32 smallMadt (0 + 4)).toNat - 44))
      [[0, 8, 1, 2, 1, 0, 0, 0]] := ⟨by decide, by unfold Format.IsPiece; decide⟩
  obtain rfl := hzero.mpr ⟨_, hsplits⟩
  refine ⟨s', hrun, ?_⟩
  rw [(hlists _ hsplits).1 0]
  rfl

end mvh.acpi
