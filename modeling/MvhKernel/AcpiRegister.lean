-- What the ACPI functions give to callers.
import MvhKernel.AcpiBounds
import MvhKernel.Roster
import MvhKernel.Tally

open flat_memory ranges scan roster

namespace mvh.acpi

section
variable {m : Mem} {s : Acpi} {α β : Type}

/-! ## Programs that only read -/

abbrev Still (m : Mem) (s : Acpi) (x : Scan Acpi α) : Prop := Leads m s x fun _ s' => s' = s

theorem still_pure (a : α) : Still m s (pure a : Scan Acpi α) := leads_pure rfl

theorem still_bind {x : Scan Acpi α} {f : α → Scan Acpi β} (hx : Still m s x)
    (hf : ∀ a, Still m s (f a)) : Still m s (x >>= f) := by
  refine leads_bind hx fun a s' hs => ?_
  rw [hs]
  exact hf a

theorem bytes_equal_still (a : Nat) (text : List UInt8) : Still m s (bytes_equal a text) := by
  induction text generalizing a with
  | nil => exact still_pure true
  | cons c rest ih =>
    refine leads_byte ?_
    grind [still_pure]

theorem sumBytes_still (a n : Nat) (sum : UInt8) : Still m s (sumBytes a n sum) := by
  induction n generalizing a sum with
  | zero => exact still_pure sum
  | succ n ih => exact leads_byte (ih (a + 1) _)

theorem readBytes_still (a n : Nat) : Still m s (readBytes a n) := by
  induction n generalizing a with
  | zero => exact still_pure []
  | succ n ih => exact leads_byte (still_bind (ih (a + 1)) fun rest => still_pure _)

theorem checksum_still (a : Nat) (l : UInt32) : Still m s (acpi_checksum_valid a l) := by
  unfold acpi_checksum_valid
  split
  · exact still_pure false
  · exact still_bind (sumBytes_still a _ 0) fun sum => still_pure _

theorem hasSignature_still (a : Nat) (t : Option (List UInt8)) : Still m s (hasSignature a t) := by
  cases t with
  | none => exact still_pure true
  | some t => exact bytes_equal_still a t

theorem sdt_blob_still (a : Nat) (av : UInt32) (t : Option (List UInt8)) :
    Still m s (acpi_validate_sdt_blob a av t) := by
  unfold acpi_validate_sdt_blob
  split
  · exact still_pure _
  refine leads_word32 ?_
  split
  · exact still_pure _
  refine still_bind (hasSignature_still a t) fun kn => ?_
  split
  · exact still_pure _
  · exact still_bind (checksum_still a _) fun v => still_pure _

theorem bySignature_still (header : Nat) (ms : α) (e : List (List UInt8 × α)) :
    Still m s (bySignature header ms e) := by
  induction e with
  | nil => exact still_pure ms
  | cons en rest ih =>
    refine still_bind (bytes_equal_still header en.1) fun same => ?_
    grind [still_pure]

theorem bySignature_leads {header : Nat} {ms : α} {e : List (List UInt8 × α)} (g : α → Prop)
    (hm : g ms) (he : ∀ en ∈ e, g en.2) :
    Leads m s (bySignature header ms e) fun value _ => g value := by
  induction e generalizing s with
  | nil => exact leads_pure hm
  | cons en e ih =>
    refine leads_bind (bytes_equal_still header en.1) fun same s' _ => ?_
    grind [leads_pure]

theorem rootEntry_still (r : Nat) (uses_xsdt : Bool) (index : Nat) :
    Still m s (rootEntry r uses_xsdt index) := by
  cases uses_xsdt with
  | true => exact leads_word64 (still_pure _)
  | false => exact leads_word32 (still_pure _)

/-! ## What a parser does -/

/-- The CPUs are counted in two fields, by the kind of their record. -/
def cpuRoster (s : Acpi) : Roster CpuInfo :=
  ⟨s.cpus, s.stored_cpus, s.state.local_apics.toNat + s.state.local_x2apics.toNat⟩

def ioapicRoster (s : Acpi) : Roster IoapicInfo := ⟨s.ioapics, s.stored_ioapics, s.state.ioapics.toNat⟩

def overrideRoster (s : Acpi) : Roster InterruptOverride :=
  ⟨s.overrides, s.stored_overrides, s.state.interrupt_overrides.toNat⟩

def segmentRoster (s : Acpi) : Roster McfgSegment :=
  ⟨s.mcfg_segments, s.stored_mcfg_segments, s.state.mcfg_segments.toNat⟩

def frame (s : Acpi) : (Nat → UInt64) × UInt32 × UInt32 × Bool :=
  (s.registry, s.state.table_count, s.state.rejected_tables, s.state.uses_xsdt)

def rosters (s : Acpi) := (frame s, cpuRoster s, ioapicRoster s, overrideRoster s, segmentRoster s)

/-- At most `n` records were seen from one state to the other. -/
structure Grown (n : Nat) (s s' : Acpi) : Prop where
  frame : frame s' = frame s
  cpus : Grows ACPI_MAX_CPUS n (cpuRoster s) (cpuRoster s')
  ioapics : Grows ACPI_MAX_IOAPICS n (ioapicRoster s) (ioapicRoster s')
  overrides : Grows ACPI_MAX_OVERRIDES n (overrideRoster s) (overrideRoster s')
  segments : Grows ACPI_MAX_MCFG_SEGMENTS n (segmentRoster s) (segmentRoster s')

variable {s' s'' : Acpi} {n k : Nat}

theorem Grown.same (n : Nat) (s : Acpi) : Grown n s s := ⟨rfl, .same _, .same _, .same _, .same _⟩

theorem grown_of_rosters (h : rosters s' = rosters s) : Grown n s s' := by
  simp only [rosters, Prod.mk.injEq] at h
  obtain ⟨hf, hc, hi, ho, hs⟩ := h
  refine ⟨hf, ?_, ?_, ?_, ?_⟩
  · rw [hc]
    exact .same _
  · rw [hi]
    exact .same _
  · rw [ho]
    exact .same _
  · rw [hs]
    exact .same _

theorem Grown.mono (h : Grown n s s') (hle : n ≤ k) : Grown k s s' :=
  ⟨h.frame, h.cpus.mono hle, h.ioapics.mono hle, h.overrides.mono hle, h.segments.mono hle⟩

theorem Grown.trans (h1 : Grown n s s') (h2 : Grown k s' s'') : Grown (n + k) s s'' :=
  ⟨h2.frame.trans h1.frame, h1.cpus.trans h2.cpus, h1.ioapics.trans h2.ioapics,
    h1.overrides.trans h2.overrides, h1.segments.trans h2.segments⟩

theorem madtRecord_grown (d : Nat) (type l : UInt8) :
    Leads m s (madtRecord d type l) fun _ s' => Grown 1 s s' := by
  refine leads_get ?_
  by_cases h0 : type = 0 ∧ l ≥ 8
  · rw [if_pos h0]
    have hs : (cpuRoster s).seen + 1 < 2 ^ 32 →
        (s.state.local_apics + 1).toNat + s.state.local_x2apics.toNat = (cpuRoster s).seen + 1 := by
      grind [tally.toNat_add_one, cpuRoster]
    refine leads_modify ?_
    by_cases hr : s.stored_cpus < ACPI_MAX_CPUS
    · rw [if_pos hr]
      refine leads_byte (leads_byte (leads_byte (leads_change ?_)))
      exact ⟨rfl, .store hr _ hs, .same _, .same _, .same _⟩
    · rw [if_neg hr]
      exact leads_pure ⟨rfl, .skip hr hs, .same _, .same _, .same _⟩
  rw [if_neg h0]
  by_cases h1 : type = 1 ∧ l ≥ 12
  · rw [if_pos h1]
    refine leads_modify ?_
    by_cases hr : s.stored_ioapics < ACPI_MAX_IOAPICS
    · rw [if_pos hr]
      refine leads_byte (leads_word32 (leads_word32 (leads_change ?_)))
      exact ⟨rfl, .same _, .store hr _ tally.toNat_add_one, .same _, .same _⟩
    · rw [if_neg hr]
      exact leads_pure ⟨rfl, .same _, .skip hr tally.toNat_add_one, .same _, .same _⟩
  rw [if_neg h1]
  by_cases h2 : type = 2 ∧ l ≥ 10
  · rw [if_pos h2]
    refine leads_modify ?_
    by_cases hr : s.stored_overrides < ACPI_MAX_OVERRIDES
    · rw [if_pos hr]
      refine leads_byte (leads_byte (leads_word32 (leads_word16 (leads_change ?_))))
      exact ⟨rfl, .same _, .same _, .store hr _ tally.toNat_add_one, .same _⟩
    · rw [if_neg hr]
      exact leads_pure ⟨rfl, .same _, .same _, .skip hr tally.toNat_add_one, .same _⟩
  rw [if_neg h2]
  by_cases h3 : type = 3 ∧ l ≥ 8
  · rw [if_pos h3]
    exact leads_change (grown_of_rosters rfl)
  rw [if_neg h3]
  by_cases h4 : type = 4 ∧ l ≥ 6
  · rw [if_pos h4]
    exact leads_change (grown_of_rosters rfl)
  rw [if_neg h4]
  by_cases h5 : type = 5 ∧ l ≥ 12
  · rw [if_pos h5]
    exact leads_word64 (leads_change (grown_of_rosters rfl))
  rw [if_neg h5]
  by_cases h9 : type = 9 ∧ l ≥ 16
  · rw [if_pos h9]
    have hs : (cpuRoster s).seen + 1 < 2 ^ 32 →
        s.state.local_apics.toNat + (s.state.local_x2apics + 1).toNat = (cpuRoster s).seen + 1 := by
      grind [tally.toNat_add_one, cpuRoster]
    refine leads_modify ?_
    by_cases hr : s.stored_cpus < ACPI_MAX_CPUS
    · rw [if_pos hr]
      refine leads_word32 (leads_byte (leads_word32 (leads_change ?_)))
      exact ⟨rfl, .store hr _ hs, .same _, .same _, .same _⟩
    · rw [if_neg hr]
      exact leads_pure ⟨rfl, .skip hr hs, .same _, .same _, .same _⟩
  rw [if_neg h9]
  by_cases h10 : type = 10 ∧ l ≥ 12
  · rw [if_pos h10]
    exact leads_change (grown_of_rosters rfl)
  rw [if_neg h10]
  exact leads_pure (Grown.same 1 s)

theorem sratRecord_grown (type l : UInt8) :
    Leads m s (sratRecord type l) fun _ s' => Grown 1 s s' := by
  unfold sratRecord
  split
  · exact leads_change (grown_of_rosters rfl)
  split
  · exact leads_change (grown_of_rosters rfl)
  · exact leads_pure (Grown.same 1 s)

theorem records_grown {header : Nat} {r : Nat → UInt8 → UInt8 → Scan Acpi Unit}
    (hr : ∀ s d type l, Leads m s (r d type l) fun _ s' => Grown 1 s s')
    (hsmall : (load32 m (header + 4)).toNat ≤ 1024 * 1024) {fuel : Nat} {st : UInt32}
    (hs : st.toNat ≤ (load32 m (header + 4)).toNat) (hg : Grown st.toNat s s') :
    Leads m s' (loop (recordTurn header r) fuel st) fun _ s'' =>
      Grown (load32 m (header + 4)).toNat s s'' := by
  refine leads_loop (fun o a => o.toNat ≤ (load32 m (header + 4)).toNat ∧
    Grown o.toNat s a) (fun o a ho => ?_) ⟨hs, hg⟩
  obtain ⟨hle, hg⟩ := ho
  refine leads_word32 ?_
  refine leads_ite (fun _ => leads_pure (hg.mono hle)) fun _ => ?_
  refine leads_byte (leads_byte ?_)
  refine leads_ite (fun _ => leads_pure (hg.mono hle)) fun hl => ?_
  obtain ⟨ht, hf⟩ := not_or.mp hl
  have ht := UInt8.le_iff_toNat_le.mp (UInt8.not_lt.mp ht)
  have hf := UInt32.le_iff_toNat_le.mp (UInt32.not_lt.mp hf)
  rw [UInt32.toNat_sub_of_le _ _ (UInt32.le_iff_toNat_le.mpr hle), UInt8.toNat_toUInt32] at hf
  have h2 : (2 : UInt8).toNat = 2 := rfl
  refine leads_bind (hr a _ _ _) fun _ next hn => leads_pure ?_
  have hsm : (o + (m (header + o.toNat + 1)).toUInt32).toNat =
      o.toNat + (m (header + o.toNat + 1)).toNat := by grind
  dsimp only
  rw [hsm]
  exact ⟨by omega, (hg.trans hn).mono (by omega)⟩

section
variable {header : Nat} (hsmall : (load32 m (header + 4)).toNat ≤ 1024 * 1024) {fuel : Nat}

/-- A parser counts at most one record for every byte of its table. -/
abbrev Parses (m : Mem) (header : Nat) (x : Scan Acpi Int) : Prop :=
  ∀ s, Leads m s x fun _ s' => Grown (load32 m (header + 4)).toNat s s'

include hsmall in
theorem madt_grown : Parses m header (parse_madt fuel header) := by
  intro s
  refine leads_word32 ?_
  refine leads_ite (fun _ => leads_pure (.same _ s)) fun hl => ?_
  refine leads_word32 (leads_word32 (leads_modify ?_))
  exact records_grown (fun s => madtRecord_grown) hsmall
    (UInt32.le_iff_toNat_le.mp (UInt32.not_lt.mp hl)) (grown_of_rosters rfl)

include hsmall in
theorem srat_grown : Parses m header (parse_srat fuel header) := by
  intro s
  refine leads_word32 ?_
  refine leads_ite (fun _ => leads_pure (.same _ s)) fun hl => ?_
  exact records_grown (fun s _ => sratRecord_grown) hsmall
    (UInt32.le_iff_toNat_le.mp (UInt32.not_lt.mp hl)) (.same _ s)

theorem fadt_grown : Parses m header (parse_fadt header) := by
  intro s
  refine leads_word32 ?_
  refine leads_ite (fun _ => leads_pure (.same _ s)) fun _ => ?_
  refine leads_word32 (leads_modify ?_)
  split
  · refine leads_byte (leads_byte (leads_byte (leads_byte (leads_word64 (leads_byte (leads_modify ?_))))))
    exact leads_pure (grown_of_rosters rfl)
  · exact leads_pure (grown_of_rosters rfl)

theorem hpet_grown : Parses m header (parse_hpet header) := by
  intro s
  refine leads_word32 ?_
  split
  · exact leads_pure (.same _ s)
  · exact leads_word64 (leads_modify (leads_byte (leads_pure (grown_of_rosters rfl))))

theorem slit_grown : Parses m header (parse_slit header) := by
  intro s
  refine leads_word32 ?_
  refine leads_ite (fun _ => leads_pure (.same _ s)) fun _ => ?_
  refine leads_word64 ?_
  refine leads_ite (fun _ => leads_pure (.same _ s)) fun _ => ?_
  split
  · exact leads_pure (.same _ s)
  · exact leads_modify (leads_pure (grown_of_rosters rfl))

theorem segment_grown (sg : McfgSegment) :
    let counted := { s with state := { s.state with mcfg_segments := s.state.mcfg_segments + 1 } }
    Grown 1 s (if counted.stored_mcfg_segments < ACPI_MAX_MCFG_SEGMENTS then
      { counted with
        mcfg_segments := put counted.mcfg_segments counted.stored_mcfg_segments sg
        stored_mcfg_segments := counted.stored_mcfg_segments + 1 }
    else counted) := by
  dsimp only
  by_cases hr : s.stored_mcfg_segments < ACPI_MAX_MCFG_SEGMENTS
  · rw [if_pos hr]
    exact ⟨rfl, .same _, .same _, .same _, .store hr _ tally.toNat_add_one⟩
  · rw [if_neg hr]
    exact ⟨rfl, .same _, .same _, .same _, .skip hr tally.toNat_add_one⟩

include hsmall in
theorem mcfg_grown : Parses m header (parse_mcfg fuel header) := by
  intro s
  refine leads_word32 ?_
  refine leads_ite (fun _ => leads_pure (.same _ s)) fun hsh => ?_
  obtain ⟨hl, hw⟩ := mcfg_shape hsh
  have hst : (44 : UInt32).toNat = 44 := rfl
  refine leads_loop
    (fun o a => o.toNat ≤ (load32 m (header + 4)).toNat ∧
      ((load32 m (header + 4)).toNat - o.toNat) % 16 = 0 ∧ Grown o.toNat s a)
    ?_ ⟨by rw [hst]; exact hl, by rw [hst]; exact hw, .same _ s⟩
  rintro o a ⟨hle, hlf, hg⟩
  refine leads_word32 ?_
  refine leads_ite (fun _ => leads_pure (hg.mono hle)) fun hm => ?_
  have hm : o.toNat < (load32 m (header + 4)).toNat := by grind
  refine leads_word64 (leads_word16 (leads_byte (leads_byte ?_)))
  refine leads_ite (fun _ => leads_pure (hg.mono hle)) fun _ => ?_
  have hn : (o + 16).toNat = o.toNat + 16 := by grind
  refine leads_modify (leads_modify (leads_pure ?_))
  dsimp only
  rw [hn]
  exact ⟨by omega, by omega, (hg.trans (segment_grown _)).mono (by omega)⟩

include hsmall in
theorem parse_known_grown : Parses m header (parse_known fuel header) := by
  intro s
  have hm : Leads m s (bySignature header (fun _ => pure 0) (parsers fuel)) fun p s' =>
      Parses m header (p header) ∧ s' = s := by
    refine Leads.and (bySignature_leads (fun p : Nat → Scan Acpi Int => Parses m header (p header))
      (fun s => leads_pure (.same _ s)) fun e he => ?_) (bySignature_still _ _ _)
    simp only [parsers, List.mem_cons, List.not_mem_nil, or_false] at he
    rcases he with rfl | rfl | rfl | rfl | rfl | rfl
    · exact madt_grown hsmall
    · exact fadt_grown
    · exact hpet_grown
    · exact mcfg_grown hsmall
    · exact srat_grown hsmall
    · exact slit_grown
  refine leads_bind hm fun p s' hp => ?_
  rw [hp.2]
  exact hp.1 s

include hsmall in
theorem parseOrCount_grown (kn : Bool) : Parses m header (parseOrCount fuel kn header) := by
  intro s
  unfold parseOrCount
  split
  · exact parse_known_grown hsmall s
  · exact leads_modify (leads_pure (grown_of_rosters rfl))

end

/-! ## One table -/

/-- A new state has the same array as the old one, as far as it is in use. -/
structure SameUpTo (array array' : Nat → α) (stored stored' : UInt32) : Prop where
  counter : stored' = stored
  entries : ∀ i < stored.toNat, array' i = array i

theorem SameUpTo.infoAt {a a' : Nat → α} {st st' : UInt32}
    (h : SameUpTo a a' st st') (index : UInt32) :
    infoAt a' st' index = infoAt a st index := by
  unfold acpi.infoAt
  rw [h.counter]
  split
  · rfl
  · rename_i hlt
    rw [h.entries index.toNat (UInt32.lt_iff_toNat_lt.mp (UInt32.not_le.mp hlt))]

/-- Nothing that is in use has changed. -/
structure Restored (s s' : Acpi) : Prop where
  state : s'.state = s.state
  registry : s'.registry = s.registry
  cpus : SameUpTo s.cpus s'.cpus s.stored_cpus s'.stored_cpus
  ioapics : SameUpTo s.ioapics s'.ioapics s.stored_ioapics s'.stored_ioapics
  overrides : SameUpTo s.overrides s'.overrides s.stored_overrides s'.stored_overrides
  segments : SameUpTo s.mcfg_segments s'.mcfg_segments s.stored_mcfg_segments s'.stored_mcfg_segments

theorem Restored.refl (s : Acpi) : Restored s s :=
  ⟨rfl, rfl, ⟨rfl, fun _ _ => rfl⟩, ⟨rfl, fun _ _ => rfl⟩, ⟨rfl, fun _ _ => rfl⟩, ⟨rfl, fun _ _ => rfl⟩⟩

/-- The table was parsed into `parsed` and put behind the others. -/
structure Registered (address : UInt64) (s s' : Acpi) : Prop where
  room : s.state.table_count < ACPI_MAX_TABLES
  parsed : ∃ parsed, Grown (1024 * 1024) s parsed ∧ s' = { parsed with
    registry := put parsed.registry parsed.state.table_count address
    state := { parsed.state with table_count := parsed.state.table_count + 1 } }

theorem register_table_leads {f : UInt64} {fuel : Nat} (a : UInt64) :
    Leads m s (register_table fuel f a) fun r s' =>
      (r = -1 ∧ Restored s s') ∨ (r = 0 ∧ Registered a s s') := by
  unfold register_table
  refine leads_ite (fun _ => leads_pure (.inl ⟨rfl, .refl s⟩)) fun _ => ?_
  refine leads_word32 ?_
  refine leads_ite (fun _ => leads_pure (.inl ⟨rfl, .refl s⟩)) fun hw => ?_
  refine leads_bind ((sdt_blob_spec (fun t (ht : none = some t) => nomatch ht)
    (mapped_of_mapped_range (not_not.mp hw))).leads.and (sdt_blob_still _ _ _)) fun r s1 hr => ?_
  obtain ⟨htb, rfl⟩ := hr
  refine leads_get ?_
  refine leads_ite (fun _ => leads_pure (.inl ⟨rfl, .refl s1⟩)) fun ha => ?_
  obtain ⟨hz, hrm⟩ := not_or.mp ha
  have hsmall := (htb (not_not.mp hz)).small
  refine leads_bind (bySignature_still _ _ _) fun kn s2 hs2 => ?_
  subst hs2
  refine leads_bind (parseOrCount_grown hsmall kn s2) fun p s3 hg => ?_
  split
  · -- the counters are set back, and below them the arrays are as they were
    refine leads_modify (leads_pure (.inl ⟨rfl, rfl, ?_, ⟨rfl, hg.cpus.entries⟩,
      ⟨rfl, hg.ioapics.entries⟩, ⟨rfl, hg.overrides.entries⟩, ⟨rfl, hg.segments.entries⟩⟩))
    exact congrArg Prod.fst hg.frame
  · exact leads_modify (leads_pure (.inr ⟨rfl, UInt32.not_le.mp hrm, s3, hg.mono hsmall, rfl⟩))

/-! ## All tables -/

/-- With so many tables, at most so many records were seen that no counter has wrapped. -/
structure Filled (limit tables : UInt32) (a : Roster α) : Prop where
  seen : a.seen ≤ tables.toNat * (1024 * 1024)
  full : a.Full limit

theorem Filled.grows {l t : UInt32} {a b : Roster α} (h : Filled l t a)
    (hg : Grows l (1024 * 1024) a b) (hr : t < ACPI_MAX_TABLES) :
    Filled l (t + 1) b := by
  have hf : t.toNat < 64 := UInt32.lt_iff_toNat_lt.mp hr
  have hs := h.seen
  have hm := hg.seen (by omega)
  refine ⟨?_, hg.full (by omega) h.full⟩
  grind

theorem Filled.congr {l t : UInt32} {a b : Roster α} (h : Filled l t a)
    (hst : b.stored = a.stored) (hs : b.seen = a.seen) : Filled l t b := by
  obtain ⟨hm, hf⟩ := h
  unfold Roster.Full at hf
  refine ⟨hs ▸ hm, ?_⟩
  grind [Roster.Full]

/-- The state after `done` entries of the root table. -/
structure Counted (uses_xsdt : Bool) (done : Nat) (s : Acpi) : Prop where
  uses_xsdt : s.state.uses_xsdt = uses_xsdt
  entries : s.state.table_count.toNat + s.state.rejected_tables.toNat = done
  tables : s.state.table_count ≤ ACPI_MAX_TABLES
  cpus : Filled ACPI_MAX_CPUS s.state.table_count (cpuRoster s)
  ioapics : Filled ACPI_MAX_IOAPICS s.state.table_count (ioapicRoster s)
  overrides : Filled ACPI_MAX_OVERRIDES s.state.table_count (overrideRoster s)
  segments : Filled ACPI_MAX_MCFG_SEGMENTS s.state.table_count (segmentRoster s)

variable {uses_xsdt : Bool} {done : Nat}

theorem Counted.rejected (h : Counted uses_xsdt done s) (hr : Restored s s')
    (hd : done < 2 ^ 31) :
    Counted uses_xsdt (done + 1)
      { s' with state := { s'.state with rejected_tables := s'.state.rejected_tables + 1 } } := by
  obtain ⟨hx, he, ht, hc, hi, ho, hs⟩ := h
  obtain ⟨hst, -, hcp, hip, hov, hsg⟩ := hr
  rw [hst]
  refine ⟨hx, ?_, ht, hc.congr hcp.counter rfl, hi.congr hip.counter rfl,
    ho.congr hov.counter rfl, hs.congr hsg.counter rfl⟩
  grind

theorem Counted.registered {a : UInt64} (h : Counted uses_xsdt done s)
    (hr : Registered a s s') : Counted uses_xsdt (done + 1) s' := by
  obtain ⟨hx, he, ht, hcp, hi, ho, hs⟩ := h
  obtain ⟨hrm, p, hg, rfl⟩ := hr
  have hf := hg.frame
  simp only [frame, Prod.mk.injEq] at hf
  obtain ⟨-, hc, hrj, hsm⟩ := hf
  have hlt : s.state.table_count.toNat < 64 := UInt32.lt_iff_toNat_lt.mp hrm
  have hn : (s.state.table_count + 1).toNat = s.state.table_count.toNat + 1 := by grind
  refine ⟨hsm.trans hx, ?_, ?_, ?_, ?_, ?_, ?_⟩ <;> dsimp only <;> rw [hc]
  · rw [hrj, hn]
    omega
  · grind
  · exact hcp.grows hg.cpus hrm
  · exact hi.grows hg.ioapics hrm
  · exact ho.grows hg.overrides hrm
  · exact hs.grows hg.segments hrm

theorem registerEntries_leads {f : UInt64} {fuel rt : Nat} {index : Nat}
    (h : Counted uses_xsdt index s) (left : Nat) (hf : index + left < 2 ^ 31) :
    Leads m s (registerEntries fuel f rt uses_xsdt index left) fun _ s' =>
      Counted uses_xsdt (index + left) s' := by
  induction left generalizing index s with
  | zero => exact leads_pure h
  | succ left ih =>
    refine leads_bind (rootEntry_still rt uses_xsdt index) fun a s1 hs1 => ?_
    subst hs1
    refine leads_bind (register_table_leads a) fun r s2 hrl => leads_modify ?_
    have hn : index + (left + 1) = index + 1 + left := by omega
    rw [hn]
    rcases hrl with ⟨rfl, hrs⟩ | ⟨rfl, hr⟩
    · exact ih (h.rejected hrs (by omega)) (by omega)
    · exact ih (h.registered hr) (by omega)

/-! ## The root -/

def rootAddress (m : Mem) (rsdp : Nat) (uses_xsdt : Bool) : UInt64 :=
  if uses_xsdt then load64 m (rsdp + 24) else (load32 m (rsdp + 16)).toUInt64

def rootEntries (m : Mem) (rsdp : Nat) (uses_xsdt : Bool) : UInt32 :=
  (load32 m ((rootAddress m rsdp uses_xsdt).toNat + 4) - 36) / entry_size uses_xsdt

def RootNamed (m : Mem) (rsdp : Nat) (info : RsdpInfo) : Prop :=
  info.root_address = rootAddress m rsdp info.uses_xsdt

theorem rsdp_blob_leads (d : Nat) (sz : UInt32) :
    Leads m s (acpi_validate_rsdp_blob d sz) fun i s' =>
      (∀ f, i = some f → RootNamed m d f) ∧ s' = s := by
  have hn : (∀ f, none = some f → RootNamed m d f) ∧ s = s := ⟨nofun, rfl⟩
  refine leads_ite (fun _ => leads_pure hn) fun _ => ?_
  refine leads_bind (bytes_equal_still d _) fun kn s1 hs1 => ?_
  subst hs1
  refine leads_ite (fun _ => leads_pure hn) fun _ => ?_
  refine leads_bind (checksum_still d _) fun v s2 hs2 => ?_
  subst hs2
  refine leads_ite (fun _ => leads_pure hn) fun _ => ?_
  refine leads_byte (leads_bind (readBytes_still _ _) fun o s3 hs3 => ?_)
  subst hs3
  refine leads_word32 (leads_ite (fun _ => ?_) fun _ => leads_pure ⟨fun f hf => ?_, rfl⟩)
  swap
  · split at hf
    · cases hf
      rfl
    · cases hf
  refine leads_ite (fun _ => leads_pure hn) fun _ => leads_word32 ?_
  refine leads_ite (fun _ => leads_pure hn) fun _ => ?_
  refine leads_bind (checksum_still d _) fun v s4 hs4 => ?_
  subst hs4
  refine leads_ite (fun _ => leads_pure hn) fun _ => ?_
  refine leads_word64 (leads_pure ⟨fun f hf => ?_, rfl⟩)
  unfold RootNamed rootAddress
  grind

theorem rsdpSize_still (f r : UInt64) : Still m s (rsdpSize f r) := by
  unfold rsdpSize
  refine leads_byte ?_
  grind [still_pure, leads_word32]

/-- What the search for the root table knows at each turn and when it ends. -/
def SearchNamed (m : Mem) (rsdp : Nat) (s : Acpi) :
    (RsdpInfo × Nat) ⊕ (Option RsdpInfo × Nat) → Acpi → Prop
  | .inl (info, _), s' => RootNamed m rsdp info ∧ s' = s
  | .inr (root, _), s' => (∀ info, root = some info → RootNamed m rsdp info) ∧ s' = s

theorem fallBack_leads (r : Nat) (i : RsdpInfo) (j : Nat) :
    Leads m s (fallBack r i j) (SearchNamed m r s) := by
  unfold fallBack
  refine leads_ite (fun _ => leads_pure ⟨nofun, rfl⟩) fun _ => ?_
  refine leads_word32 ?_
  split
  · exact leads_pure ⟨rfl, rfl⟩
  · exact leads_pure ⟨nofun, rfl⟩

theorem rootTurn_leads {f : UInt64} {rs : Nat} {i : RsdpInfo} (h : RootNamed m rs i)
    (j : Nat) : Leads m s (rootTurn f rs (i, j)) (SearchNamed m rs s) := by
  unfold rootTurn
  dsimp only
  split
  · exact fallBack_leads rs i j
  refine leads_word32 ?_
  split
  · exact fallBack_leads rs i j
  refine leads_bind (sdt_blob_still _ _ _) fun r s1 hs1 => ?_
  subst hs1
  split
  · exact fallBack_leads rs i j
  · refine leads_pure ⟨fun fn hf => ?_, rfl⟩
    cases hf
    exact h

theorem root_leads {f : UInt64} {fuel r : Nat} {i : RsdpInfo} (h : RootNamed m r i) :
    Leads m s (loop (rootTurn f r) fuel (i, 0)) fun rt s' =>
      SearchNamed m r s (.inr rt) s' := by
  refine leads_loop (fun a ar => SearchNamed m r s (.inl a) ar) ?_ ⟨h, rfl⟩
  rintro ⟨an, j⟩ _ ⟨hn, rfl⟩
  refine (rootTurn_leads hn j).mono fun next s' hnx => ?_
  grind

theorem filled_nothing (l : UInt32) (e : Nat → α) : Filled l 0 (⟨e, 0, 0⟩ : Roster α) :=
  ⟨Nat.zero_le _, (Nat.min_zero _).symm⟩

theorem IsTable.root_entries {f : UInt64} {r : Nat} (h : IsTable f m r) (uses_xsdt : Bool) :
    ((load32 m (r + 4) - 36) / entry_size uses_xsdt).toNat < 2 ^ 31 := by
  have hsmall := h.small
  have hs : (load32 m (r + 4) - 36).toNat = (load32 m (r + 4)).toNat - 36 :=
    UInt32.toNat_sub_of_le _ _ (UInt32.le_iff_toNat_le.mpr h.header)
  rw [UInt32.toNat_div, hs]
  exact Nat.lt_of_le_of_lt (Nat.div_le_self _ _) (by omega)

theorem readRoot_leads {f : UInt64} {fuel rs : Nat} {i : RsdpInfo} (h : RootNamed m rs i)
    (ht : IsTable f m i.root_address.toNat) :
    Leads m {} (readRoot fuel f i) fun r s' =>
      r = 0 → Counted i.uses_xsdt (rootEntries m rs i.uses_xsdt).toNat s' := by
  have he : rootEntries m rs i.uses_xsdt =
      (load32 m (i.root_address.toNat + 4) - 36) / entry_size i.uses_xsdt := by
    unfold rootEntries
    rw [← h]
  rw [he]
  have hf := ht.root_entries i.uses_xsdt
  refine leads_word32 ?_
  refine leads_ite (fun _ => leads_pure nofun) fun _ => ?_
  refine leads_modify (leads_bind (registerEntries_leads ?_ _ (by omega)) fun _ s1 hc => ?_)
  · -- `acpi_init` starts with everything cleared
    have hn : (0 : UInt32) ≤ ACPI_MAX_TABLES := by decide
    exact ⟨rfl, rfl, hn, filled_nothing _ _, filled_nothing _ _, filled_nothing _ _, filled_nothing _ _⟩
  · rw [Nat.zero_add] at hc
    refine leads_modify (leads_pure fun _ => ?_)
    exact ⟨hc.uses_xsdt, hc.entries, hc.tables, hc.cpus, hc.ioapics,
      hc.overrides, hc.segments⟩

theorem acpi_init_leads {f : UInt64} {fuel : Nat} (hfl : 1024 * 1024 < fuel) (r : UInt64) :
    Leads m s (acpi_init fuel f r) fun rs s' =>
      rs.1 = 0 → ∃ uses_xsdt,
        Counted uses_xsdt (rootEntries m r.toNat uses_xsdt).toNat s' := by
  refine leads_modify ?_
  refine leads_ite (fun _ => leads_pure nofun) fun hr => ?_
  have hr : Mapped f r.toNat 20 := mapped_of_mapped_range (not_not.mp hr)
  refine leads_bind (rsdpSize_still f r) fun sz s1 hs1 => ?_
  subst hs1
  cases sz with
  | none => exact leads_pure nofun
  | some sz =>
    refine leads_bind (rsdp_blob_leads r.toNat sz) fun i s2 hi => ?_
    obtain ⟨hn, rfl⟩ := hi
    cases i with
    | none => exact leads_pure nofun
    | some i =>
      refine leads_bind ((root_spec hfl hr).leads.and (root_leads (hn i rfl)))
        fun rt s3 hrt => ?_
      match rt, hrt with
      | (none, jumps), _ => exact leads_pure nofun
      | (some found, jumps), ⟨⟨ht, _⟩, hf, hs3⟩ =>
        rw [hs3]
        refine leads_bind (readRoot_leads (hf found rfl) (ht found rfl)) fun rs s4 hc => ?_
        grind [leads_pure]

/-! ## What callers see -/

/-- The functions that give out the static data give the same in both states. -/
structure LooksSame (m : Mem) (s s' : Acpi) : Prop where
  status : acpi_status s' = acpi_status s
  table_count : acpi_table_count s' = acpi_table_count s
  table_info : ∀ index, acpi_table_info m s' index = acpi_table_info m s index
  find_table : ∀ text nth, acpi_find_table m s' text nth = acpi_find_table m s text nth
  cpu_count : acpi_cpu_count s' = acpi_cpu_count s
  cpu_info : ∀ index, acpi_cpu_info s' index = acpi_cpu_info s index
  ioapic_count : acpi_ioapic_count s' = acpi_ioapic_count s
  ioapic_info : ∀ index, acpi_ioapic_info s' index = acpi_ioapic_info s index
  override_count : acpi_interrupt_override_count s' = acpi_interrupt_override_count s
  override_info : ∀ index, acpi_interrupt_override_info s' index = acpi_interrupt_override_info s index
  segment_count : acpi_mcfg_segment_count s' = acpi_mcfg_segment_count s
  segment_info : ∀ index, acpi_mcfg_segment_info s' index = acpi_mcfg_segment_info s index

theorem findTable_congr (h : s'.registry = s.registry) (t : List UInt8) (left index : Nat) (nth : UInt32) :
    findTable m s' t left index nth = findTable m s t left index nth := by
  induction left generalizing index nth with
  | zero => rfl
  | succ left ih =>
    unfold findTable
    rw [h, ih, ih]

theorem Restored.looks_same (h : Restored s s') : LooksSame m s s' := by
  refine ⟨h.state, congrArg Status.table_count h.state, fun index => ?_, fun t nth => ?_,
    h.cpus.counter, h.cpus.infoAt, h.ioapics.counter, h.ioapics.infoAt, h.overrides.counter,
    h.overrides.infoAt, h.segments.counter, h.segments.infoAt⟩
  · unfold acpi_table_info
    rw [h.state, h.registry]
  · unfold acpi_find_table
    rw [h.state, findTable_congr h.registry]

end

/-- A table that is not registered leaves no trace: every function gives the same as before. After
an `acpi_init` that succeeds, the tables and the rejected ones are the entries of the root table,
and the functions count what the status counts, up to the limits of the arrays. -/
theorem registration_is_all_or_nothing :
    ∃ enough, ∀ fuel ≥ enough, ∀ (m : Mem) (flags : UInt64),
      (∀ address before, ∃ result after,
        (register_table fuel flags address m before).1 = some (result, after) ∧
        (result = -1 → LooksSame m before after)) ∧
      (∀ rsdp_address before, ∃ result jumps after,
        (acpi_init fuel flags rsdp_address m before).1 = some ((result, jumps), after) ∧
        (result = 0 →
          let status := acpi_status after
          status.table_count.toNat + status.rejected_tables.toNat =
            (rootEntries m rsdp_address.toNat status.uses_xsdt).toNat ∧
          (acpi_cpu_count after).toNat = min 256 (status.local_apics.toNat + status.local_x2apics.toNat) ∧
          (acpi_ioapic_count after).toNat = min 16 status.ioapics.toNat ∧
          (acpi_interrupt_override_count after).toNat = min 32 status.interrupt_overrides.toNat ∧
          (acpi_mcfg_segment_count after).toNat = min 32 status.mcfg_segments.toNat)) := by
  refine ⟨1024 * 1024 + 1, fun fuel hfuel m flags => ⟨fun address before => ?_, fun rsdp_address before => ?_⟩⟩
  · have hends : Fine flags m before (register_table fuel flags address) := register_table_fine hfuel address
    obtain ⟨-, result, after, hrun, -⟩ := hends
    refine ⟨result, after, hrun, fun hresult => ?_⟩
    rcases register_table_leads address result after hrun with ⟨-, hrestored⟩ | ⟨hzero, -⟩
    · exact hrestored.looks_same
    · exact absurd (hresult.symm.trans hzero) (by decide)
  · have hends : Meets (·.Inside (identityMapped flags)) m before
        (acpi_init fuel flags rsdp_address) fun result _ => result.2 ≤ 1 := acpi_init_spec hfuel rsdp_address
    obtain ⟨-, ⟨result, jumps⟩, after, hrun, -⟩ := hends
    refine ⟨result, jumps, after, hrun, fun hresult => ?_⟩
    obtain ⟨uses_xsdt, hcounted⟩ := acpi_init_leads hfuel rsdp_address _ after hrun hresult
    refine ⟨?_, hcounted.cpus.full, hcounted.ioapics.full, hcounted.overrides.full, hcounted.segments.full⟩
    have hxsdt : (acpi_status after).uses_xsdt = uses_xsdt := hcounted.uses_xsdt
    rw [hxsdt]
    exact hcounted.entries

end mvh.acpi
