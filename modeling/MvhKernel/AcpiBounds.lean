-- Whatever the firmware has left in memory, `acpi_init` reads only identity-mapped
-- memory, and it ends.
import MvhKernel.Acpi

open flat_memory ranges scan

namespace mvh.acpi

def identityMapped (flags : UInt64) : Range := ⟨0x1000, (identityLimit flags).toNat - 0x1000⟩

theorem limit_le (flags : UInt64) :
    0x40000000 ≤ (identityLimit flags).toNat ∧ (identityLimit flags).toNat ≤ 0x100000000 := by
  unfold identityLimit
  split <;> decide

theorem mapped_range_iff (flags a : UInt64) (l : UInt32) :
    mapped_range flags a l = true ↔ 0x1000 ≤ a.toNat ∧ 0 < l.toNat ∧
      a.toNat + l.toNat ≤ (identityLimit flags).toNat := by
  have hp : l ≠ 0 ↔ 0 < l.toNat := by
    rw [Nat.pos_iff_ne_zero, ne_eq, ne_eq, ← UInt32.toNat_inj, UInt32.toNat_zero]
  have hf : (0x1000 : UInt64).toNat = 0x1000 := rfl
  simp only [mapped_range, Bool.and_eq_true, decide_eq_true_eq, bne_iff_ne, hp, ge_iff_le,
    UInt64.le_iff_toNat_le, UInt64.lt_iff_toNat_lt, UInt32.toNat_toUInt64, hf]
  grind

section
variable {flags : UInt64} {m : Mem} {s : Acpi} {α β : Type}

abbrev Fine (flags : UInt64) (m : Mem) (s : Acpi) (x : Scan Acpi α) : Prop :=
  Meets (·.Inside (identityMapped flags)) m s x fun _ _ => True

/-- The `n` bytes from `a` on are identity-mapped. -/
structure Mapped (flags : UInt64) (a n : Nat) : Prop where
  low : 0x1000 ≤ a
  high : a + n ≤ (identityLimit flags).toNat

theorem Mapped.inside {a n b k : Nat} (h : Mapped flags a n) (h1 : a ≤ b) (h2 : b + k ≤ a + n) :
    (⟨b, k⟩ : Range).Inside (identityMapped flags) := by
  have hlw := h.low
  have hh := h.high
  have hl := limit_le flags
  grind [identityMapped, Range.inside_of_le]

theorem Mapped.part {a n b k : Nat} (h : Mapped flags a n) (h1 : a ≤ b) (h2 : b + k ≤ a + n) :
    Mapped flags b k :=
  ⟨Nat.le_trans h.low h1, Nat.le_trans h2 h.high⟩

theorem mapped_of_mapped_range {a : UInt64} {l : UInt32}
    (h : mapped_range flags a l = true) : Mapped flags a.toNat l.toNat := by
  obtain ⟨hl, -, hh⟩ := (mapped_range_iff _ _ _).mp h
  exact ⟨hl, hh⟩

theorem fine_bind {x : Scan Acpi α} {f : α → Scan Acpi β} (hx : Fine flags m s x)
    (hf : ∀ a s', Fine flags m s' (f a)) : Fine flags m s (x >>= f) :=
  meets_bind hx fun a s' _ => hf a s'

theorem fine_pure (a : α) : Fine flags m s (pure a : Scan Acpi α) := meets_pure trivial

/-! ## Checks -/

theorem bytes_equal_fine {a : Nat} {t : List UInt8} (h : Mapped flags a t.length) :
    Fine flags m s (bytes_equal a t) := by
  induction t generalizing a with
  | nil => exact fine_pure true
  | cons c rest ih =>
    rw [List.length_cons] at h
    refine meets_byte (h.inside (le_refl a) (by omega)) ?_
    split
    · exact fine_pure false
    · exact ih (h.part (by omega) (by omega))

theorem sumBytes_fine {a n : Nat} (h : Mapped flags a n) (sum : UInt8) :
    Fine flags m s (sumBytes a n sum) := by
  induction n generalizing a sum with
  | zero => exact fine_pure sum
  | succ n ih =>
    exact meets_byte (h.inside (le_refl a) (by omega)) (ih (h.part (by omega) (by omega)) _)

theorem readBytes_fine {a n : Nat} (h : Mapped flags a n) : Fine flags m s (readBytes a n) := by
  induction n generalizing a s with
  | zero => exact fine_pure []
  | succ n ih =>
    refine meets_byte (h.inside (le_refl a) (by omega)) ?_
    exact fine_bind (ih (h.part (by omega) (by omega))) fun _ _ => fine_pure _

theorem checksum_fine {a : Nat} {l : UInt32} (h : Mapped flags a l.toNat) :
    Fine flags m s (acpi_checksum_valid a l) := by
  unfold acpi_checksum_valid
  split
  · exact fine_pure false
  · exact fine_bind (sumBytes_fine h 0) fun _ _ => fine_pure _

theorem rsdp_blob_fine {a : Nat} {sz : UInt32} (h : Mapped flags a sz.toNat) :
    Fine flags m s (acpi_validate_rsdp_blob a sz) := by
  refine meets_ite (fun _ => fine_pure none) fun hs => ?_
  have hv1 : 20 ≤ sz.toNat := by grind
  refine fine_bind (bytes_equal_fine (h.part (le_refl a) (by simp [rsdpSignature]; omega)))
    fun k s => ?_
  refine meets_ite (fun _ => fine_pure none) fun _ => ?_
  refine fine_bind (checksum_fine (h.part (le_refl a) (Nat.add_le_add_left hv1 a))) fun v s => ?_
  refine meets_ite (fun _ => fine_pure none) fun _ => ?_
  refine meets_byte (h.inside (by omega) (by omega)) ?_
  refine fine_bind (readBytes_fine (h.part (by omega) (by omega))) fun o s => ?_
  refine meets_word32 (h.inside (by omega) (by omega)) ?_
  refine meets_ite (fun _ => ?_) fun _ => fine_pure _
  -- the fields of the second revision are read only when the length covers them
  refine meets_ite (fun _ => fine_pure none) fun hv2 => ?_
  have hv2 : 36 ≤ sz.toNat := by grind
  refine meets_word32 (h.inside (by omega) (by omega)) ?_
  refine meets_ite (fun _ => fine_pure none) fun hl => ?_
  have hl : (load32 m (a + 20)).toNat ≤ sz.toNat := by grind
  refine fine_bind (checksum_fine (h.part (le_refl a) (by omega))) fun v s => ?_
  refine meets_ite (fun _ => fine_pure none) fun _ => ?_
  exact meets_word64 (h.inside (by omega) (by omega)) (fine_pure _)

/-- The table at an address: it is mapped as a whole, has a header and is not too long. -/
structure IsTable (flags : UInt64) (m : Mem) (a : Nat) : Prop where
  mapped : Mapped flags a (load32 m (a + 4)).toNat
  header : 36 ≤ (load32 m (a + 4)).toNat
  small : (load32 m (a + 4)).toNat ≤ 1024 * 1024

theorem sdt_blob_spec {a : Nat} {tx : Option (List UInt8)}
    (ht : ∀ t, tx = some t → t.length = 4) (h : Mapped flags a (load32 m (a + 4)).toNat) :
    Meets (·.Inside (identityMapped flags)) m s
      (acpi_validate_sdt_blob a (load32 m (a + 4)) tx)
      fun r _ => r = 0 → IsTable flags m a := by
  unfold acpi_validate_sdt_blob
  refine meets_ite (fun _ => meets_pure fun h => absurd h (by decide)) fun ha => ?_
  have hh : 36 ≤ (load32 m (a + 4)).toNat := by grind
  refine meets_word32 (h.inside (by omega) (by omega)) ?_
  refine meets_ite (fun _ => meets_pure fun h => absurd h (by decide)) fun hl => ?_
  have hs : (load32 m (a + 4)).toNat ≤ 1024 * 1024 := by grind
  have hk : Fine flags m s (hasSignature a tx) := by
    cases tx with
    | none => exact fine_pure true
    | some t =>
      have hf := ht t rfl
      exact bytes_equal_fine (h.part (le_refl a) (by omega))
  refine meets_bind hk fun k s _ => ?_
  split
  · grind [meets_pure]
  · refine meets_bind (checksum_fine h) fun v s _ => meets_pure fun _ => ⟨h, hh, hs⟩

/-! ## The parsers -/

theorem fine_modify (g : Acpi → Acpi) : Fine flags m s (modify g) :=
  ⟨fun _ hr => absurd hr List.not_mem_nil, (), g s, rfl, trivial⟩

theorem madtRecord_fine {d : Nat} {type l : UInt8} (h : Mapped flags d l.toNat) :
    Fine flags m s (madtRecord d type l) := by
  refine meets_get ?_
  refine meets_ite (fun hlc => meets_modify ?_) fun _ => ?_
  · have hl : 8 ≤ l.toNat := by grind
    refine meets_ite (fun _ => ?_) fun _ => fine_pure ()
    refine meets_byte (h.inside (by omega) (by omega)) ?_
    refine meets_byte (h.inside (by omega) (by omega)) ?_
    exact meets_byte (h.inside (by omega) (by omega)) (fine_modify _)
  refine meets_ite (fun hi => meets_modify ?_) fun _ => ?_
  · have hl : 12 ≤ l.toNat := UInt8.le_iff_toNat_le.mp hi.2
    refine meets_ite (fun _ => ?_) fun _ => fine_pure ()
    refine meets_byte (h.inside (by omega) (by omega)) ?_
    refine meets_word32 (h.inside (by omega) (by omega)) ?_
    exact meets_word32 (h.inside (by omega) (by omega)) (fine_modify _)
  refine meets_ite (fun ho => meets_modify ?_) fun _ => ?_
  · have hl : 10 ≤ l.toNat := UInt8.le_iff_toNat_le.mp ho.2
    refine meets_ite (fun _ => ?_) fun _ => fine_pure ()
    refine meets_byte (h.inside (by omega) (by omega)) ?_
    refine meets_byte (h.inside (by omega) (by omega)) ?_
    refine meets_word32 (h.inside (by omega) (by omega)) ?_
    exact meets_word16 (h.inside (by omega) (by omega)) (fine_modify _)
  refine meets_ite (fun _ => fine_modify _) fun _ => ?_
  refine meets_ite (fun _ => fine_modify _) fun _ => ?_
  refine meets_ite (fun ha => ?_) fun _ => ?_
  · have hl : 12 ≤ l.toNat := UInt8.le_iff_toNat_le.mp ha.2
    exact meets_word64 (h.inside (by omega) (by omega)) (fine_modify _)
  refine meets_ite (fun hx => meets_modify ?_) fun _ => ?_
  · have hl : 16 ≤ l.toNat := UInt8.le_iff_toNat_le.mp hx.2
    refine meets_ite (fun _ => ?_) fun _ => fine_pure ()
    refine meets_word32 (h.inside (by omega) (by omega)) ?_
    refine meets_byte (h.inside (by omega) (by omega)) ?_
    exact meets_word32 (h.inside (by omega) (by omega)) (fine_modify _)
  exact meets_ite (fun _ => fine_modify _) fun _ => fine_pure ()

theorem sratRecord_fine (type l : UInt8) : Fine flags m s (sratRecord type l) := by
  unfold sratRecord
  split
  · exact fine_modify _
  split
  · exact fine_modify _
  · exact fine_pure ()

section
variable {header : Nat} (h : IsTable flags m header)
include h

theorem IsTable.inside {a n : Nat} (h1 : header ≤ a)
    (h2 : a + n ≤ header + (load32 m (header + 4)).toNat) :
    (⟨a, n⟩ : Range).Inside (identityMapped flags) :=
  h.mapped.inside h1 h2

theorem IsTable.length_inside : (⟨header + 4, 4⟩ : Range).Inside (identityMapped flags) :=
  h.inside (by omega) (by have := h.header; omega)

theorem IsTable.records_fine {r : Nat → UInt8 → UInt8 → Scan Acpi Unit}
    (hr : ∀ d type l s, Mapped flags d l.toNat →
      Fine flags m s (r d type l))
    {st : UInt32} (hs : st.toNat ≤ (load32 m (header + 4)).toNat) {fuel : Nat}
    (hfuel : 1024 * 1024 < fuel) : Fine flags m s (loop (recordTurn header r) fuel st) := by
  have hsm := h.small
  have htw : (2 : UInt32).toNat = 2 := rfl
  refine meets_loop (fun o _ => o.toNat ≤ (load32 m (header + 4)).toNat)
    (fun o => (load32 m (header + 4)).toNat - o.toNat) ?_ hs (by omega)
  intro o s ho
  refine meets_word32 h.length_inside ?_
  refine meets_ite (fun _ => meets_pure trivial) fun hm => ?_
  have hsu : (o + 2).toNat = o.toNat + 2 := by grind
  have hrm : o.toNat + 2 ≤ (load32 m (header + 4)).toNat := by grind
  refine meets_byte (h.inside (by omega) (by omega)) ?_
  refine meets_byte (h.inside (by omega) (by omega)) ?_
  refine meets_ite (fun _ => meets_pure trivial) fun hl => ?_
  obtain ⟨ht, htl⟩ := not_or.mp hl
  generalize m (header + o.toNat + 1) = l at ht htl ⊢
  have hlw : 2 ≤ l.toNat := by grind
  have hh : l.toNat ≤ (load32 m (header + 4)).toNat - o.toNat := by
    grind [UInt8.toNat_toUInt32, UInt32.toNat_sub_of_le, UInt32.le_iff_toNat_le.mp]
  refine meets_bind (hr _ _ _ s (h.mapped.part (by omega) (by omega))) fun _ s' _ => ?_
  have hn : (o + l.toUInt32).toNat = o.toNat + l.toNat := by grind
  grind [meets_pure]

theorem IsTable.madt_fine {fuel : Nat} (hfuel : 1024 * 1024 < fuel) :
    Fine flags m s (parse_madt fuel header) := by
  refine meets_word32 h.length_inside ?_
  refine meets_ite (fun _ => fine_pure _) fun hl => ?_
  have hl : 44 ≤ (load32 m (header + 4)).toNat := by grind
  refine meets_word32 (h.inside (by omega) (by omega)) ?_
  refine meets_word32 (h.inside (by omega) (by omega)) (meets_modify ?_)
  refine h.records_fine (fun _ _ _ _ hd => madtRecord_fine hd) ?_ hfuel
  exact hl

theorem IsTable.srat_fine {fuel : Nat} (hfuel : 1024 * 1024 < fuel) :
    Fine flags m s (parse_srat fuel header) := by
  refine meets_word32 h.length_inside ?_
  refine meets_ite (fun _ => fine_pure _) fun hl => ?_
  have hl : 48 ≤ (load32 m (header + 4)).toNat := by grind
  refine h.records_fine (fun _ _ _ _ _ => sratRecord_fine _ _) ?_ hfuel
  exact hl

theorem IsTable.fadt_fine : Fine flags m s (parse_fadt header) := by
  refine meets_word32 h.length_inside ?_
  refine meets_ite (fun _ => fine_pure _) fun hl => ?_
  have hl : 80 ≤ (load32 m (header + 4)).toNat := by grind
  refine meets_word32 (h.inside (by omega) (by omega)) (meets_modify ?_)
  split
  · rename_i hr
    have hr : 129 ≤ (load32 m (header + 4)).toNat := UInt32.le_iff_toNat_le.mp hr
    refine meets_byte (h.inside (by omega) (by omega)) ?_
    refine meets_byte (h.inside (by omega) (by omega)) ?_
    refine meets_byte (h.inside (by omega) (by omega)) ?_
    refine meets_byte (h.inside (by omega) (by omega)) ?_
    refine meets_word64 (h.inside (by omega) (by omega)) ?_
    exact meets_byte (h.inside (by omega) (by omega)) (meets_modify (fine_pure _))
  · exact fine_pure _

theorem IsTable.hpet_fine : Fine flags m s (parse_hpet header) := by
  refine meets_word32 h.length_inside ?_
  refine meets_ite (fun _ => fine_pure _) fun hl => ?_
  have hl : 56 ≤ (load32 m (header + 4)).toNat := by grind
  refine meets_word64 (h.inside (by omega) (by omega)) (meets_modify ?_)
  exact meets_byte (h.inside (by omega) (by omega)) (fine_pure _)

theorem IsTable.slit_fine : Fine flags m s (parse_slit header) := by
  refine meets_word32 h.length_inside ?_
  refine meets_ite (fun _ => fine_pure _) fun hl => ?_
  have hl : 44 ≤ (load32 m (header + 4)).toNat := by grind
  refine meets_word64 (h.inside (by omega) (by omega)) ?_
  refine meets_ite (fun _ => fine_pure _) fun _ => ?_
  split
  · exact fine_pure _
  · exact meets_modify (fine_pure _)

omit h in
theorem mcfg_shape {t : UInt32} (hs : ¬ (t < 44 ∨ (t - 44) % 16 ≠ 0)) :
    44 ≤ t.toNat ∧ (t.toNat - 44) % 16 = 0 := by
  obtain ⟨hsh, hw⟩ := not_or.mp hs
  have hm := congrArg UInt32.toNat (not_not.mp hw)
  grind

theorem IsTable.mcfg_fine {fuel : Nat} (hfuel : 1024 * 1024 < fuel) :
    Fine flags m s (parse_mcfg fuel header) := by
  refine meets_word32 h.length_inside ?_
  refine meets_ite (fun _ => fine_pure _) fun hsh => ?_
  obtain ⟨hl, hw⟩ := mcfg_shape hsh
  have hsm := h.small
  have hsx : (16 : UInt32).toNat = 16 := rfl
  have hs : (44 : UInt32).toNat = 44 := rfl
  refine meets_loop
    (fun o _ => 44 ≤ o.toNat ∧ o.toNat ≤ (load32 m (header + 4)).toNat ∧
      ((load32 m (header + 4)).toNat - o.toNat) % 16 = 0)
    (fun o => (load32 m (header + 4)).toNat - o.toNat) ?_
    ⟨hs.ge, by rw [hs]; exact hl, by rw [hs]; exact hw⟩ (by omega)
  rintro o s ⟨hlw, hh, hlf⟩
  refine meets_word32 h.length_inside ?_
  refine meets_ite (fun _ => meets_pure trivial) fun hm => ?_
  have hm : o.toNat < (load32 m (header + 4)).toNat := by grind
  refine meets_word64 (h.inside (by omega) (by omega)) ?_
  refine meets_word16 (h.inside (by omega) (by omega)) ?_
  refine meets_byte (h.inside (by omega) (by omega)) ?_
  refine meets_byte (h.inside (by omega) (by omega)) ?_
  split
  · exact meets_pure trivial
  · have hn : (o + 16).toNat = o.toNat + 16 := by grind
    refine meets_modify (meets_modify (meets_pure ⟨⟨?_, ?_, ?_⟩, ?_⟩)) <;> rw [hn] <;> omega

theorem IsTable.bySignature_spec {ms : β} {e : List (List UInt8 × β)} (g : β → Prop)
    (hm : g ms)
    (he : ∀ en ∈ e, en.1.length = 4 ∧ g en.2) :
    Meets (·.Inside (identityMapped flags)) m s (bySignature header ms e)
      fun value _ => g value := by
  induction e generalizing s with
  | nil => exact meets_pure hm
  | cons en e ih =>
    obtain ⟨t, value⟩ := en
    obtain ⟨hf, hv⟩ := he (t, value) List.mem_cons_self
    have hh := h.header
    refine meets_bind (bytes_equal_fine (h.mapped.part (le_refl _) (by simp only at hf; omega)))
      fun same s' _ => ?_
    grind [meets_pure]

theorem IsTable.known_fine : Fine flags m s (known_signature header) := by
  refine h.bySignature_spec (fun _ => True) trivial fun e he => ⟨?_, trivial⟩
  simp only [List.map_cons, List.map_nil, List.mem_cons, List.not_mem_nil, or_false] at he
  rcases he with rfl | rfl | rfl | rfl | rfl | rfl | rfl | rfl | rfl | rfl <;> rfl

theorem IsTable.parse_fine {fuel : Nat} (hfuel : 1024 * 1024 < fuel) :
    Fine flags m s (parse_known fuel header) := by
  refine meets_bind (h.bySignature_spec (fun p => ∀ s, Fine flags m s (p header))
    (fun s => fine_pure _) fun e he => ?_) fun p s' hp => hp s'
  simp only [parsers, List.mem_cons, List.not_mem_nil, or_false] at he
  rcases he with rfl | rfl | rfl | rfl | rfl | rfl
  · exact ⟨rfl, fun s => h.madt_fine hfuel⟩
  · exact ⟨rfl, fun s => h.fadt_fine⟩
  · exact ⟨rfl, fun s => h.hpet_fine⟩
  · exact ⟨rfl, fun s => h.mcfg_fine hfuel⟩
  · exact ⟨rfl, fun s => h.srat_fine hfuel⟩
  · exact ⟨rfl, fun s => h.slit_fine⟩

theorem IsTable.parseOrCount_fine {fuel : Nat} (hfuel : 1024 * 1024 < fuel) (k : Bool) :
    Fine flags m s (parseOrCount fuel k header) := by
  unfold parseOrCount
  split
  · exact h.parse_fine hfuel
  · exact meets_modify (fine_pure _)

end

/-! ## Tables and the root -/

variable {fuel : Nat} (hfuel : 1024 * 1024 < fuel)
include hfuel

theorem register_table_fine (a : UInt64) : Fine flags m s (register_table fuel flags a) := by
  unfold register_table
  refine meets_ite (fun _ => fine_pure _) fun hh => ?_
  have hm := mapped_of_mapped_range (not_not.mp hh)
  have hth : (36 : UInt32).toNat = 36 := rfl
  refine meets_word32 (hm.inside (by omega) (by omega)) ?_
  refine meets_ite (fun _ => fine_pure _) fun hw => ?_
  refine meets_bind (sdt_blob_spec nofun (mapped_of_mapped_range (not_not.mp hw)))
    fun r s' hr => ?_
  refine meets_get ?_
  refine meets_ite (fun _ => fine_pure _) fun ha => ?_
  have ht := hr (not_not.mp (not_or.mp ha).1)
  refine fine_bind ht.known_fine fun k s' => ?_
  refine fine_bind (ht.parseOrCount_fine hfuel k) fun p s' => ?_
  split
  · exact meets_modify (fine_pure _)
  · exact meets_modify (fine_pure _)

omit hfuel in
theorem rootEntry_fine {rt index c : Nat} {u : Bool} (h : IsTable flags m rt)
    (hi : index < c)
    (hc : 36 + c * (entry_size u).toNat ≤ (load32 m (rt + 4)).toNat) :
    Fine flags m s (rootEntry rt u index) := by
  have hn : (index + 1) * (entry_size u).toNat ≤ c * (entry_size u).toNat :=
    Nat.mul_le_mul_right _ hi
  rw [Nat.succ_mul] at hn
  cases u with
  | true =>
    have hs : (entry_size true).toNat = 8 := rfl
    refine ⟨fun r hr => ?_, _, s, rfl, trivial⟩
    rw [List.mem_singleton.mp hr]
    exact h.inside (by omega) (by omega)
  | false =>
    have hs : (entry_size false).toNat = 4 := rfl
    exact meets_word32 (h.inside (by omega) (by omega)) (fine_pure _)

theorem registerEntries_fine {rt c : Nat} {u : Bool} (h : IsTable flags m rt)
    (hc : 36 + c * (entry_size u).toNat ≤ (load32 m (rt + 4)).toNat)
    (index left : Nat) (hl : index + left = c) :
    Fine flags m s (registerEntries fuel flags rt u index left) := by
  induction left generalizing index s with
  | zero => exact fine_pure ()
  | succ left ih =>
    refine fine_bind (rootEntry_fine h (by omega) hc) fun a s => ?_
    refine fine_bind (register_table_fine hfuel a) fun r s => ?_
    grind [meets_modify]

theorem readRoot_fine {i : RsdpInfo} (h : IsTable flags m i.root_address.toNat) :
    Fine flags m s (readRoot fuel flags i) := by
  have hh := h.header
  refine meets_word32 h.length_inside ?_
  refine meets_ite (fun _ => fine_pure _) fun _ => ?_
  refine meets_modify (fine_bind (registerEntries_fine hfuel h ?_ 0 _ (Nat.zero_add _)) ?_)
  · have hs : (load32 m (i.root_address.toNat + 4) - 36).toNat =
        (load32 m (i.root_address.toNat + 4)).toNat - 36 := by grind
    rw [UInt32.toNat_div, hs]
    have hd := Nat.div_mul_le_self ((load32 m (i.root_address.toNat + 4)).toNat - 36)
      (entry_size i.uses_xsdt).toNat
    omega
  · exact fun _ _ => meets_modify (fine_pure _)

/-- What a turn of the search leaves: a root table or none, or one jump away from the XSDT. -/
def RootNext (flags : UInt64) (m : Mem) (info : RsdpInfo) :
    (RsdpInfo × Nat) ⊕ (Option RsdpInfo × Nat) → Prop
  | .inl (again, jumps) => again.uses_xsdt = false ∧ info.uses_xsdt = true ∧ jumps ≤ 1
  | .inr (root, jumps) =>
    (∀ found, root = some found → IsTable flags m found.root_address.toNat) ∧ jumps ≤ 1

omit hfuel in
theorem fallBack_spec {r j : Nat} {i : RsdpInfo} (hr : Mapped flags r 20)
    (hm : j ≤ 1) (hf : i.uses_xsdt = true → j = 0) :
    Meets (·.Inside (identityMapped flags)) m s (fallBack r i j)
      fun next _ => RootNext flags m i next := by
  unfold fallBack
  refine meets_ite (fun _ => meets_pure ⟨nofun, hm⟩) fun hx => ?_
  have hx := not_not.mp hx
  refine meets_word32 (hr.inside (by omega) (by omega)) ?_
  split
  · exact meets_pure ⟨rfl, hx, (congrArg (· + 1) (hf hx)).le⟩
  · exact meets_pure ⟨nofun, hm⟩

omit hfuel in
theorem rootTurn_spec {rs j : Nat} {i : RsdpInfo} (hrs : Mapped flags rs 20)
    (hm : j ≤ 1) (hf : i.uses_xsdt = true → j = 0) :
    Meets (·.Inside (identityMapped flags)) m s (rootTurn flags rs (i, j))
      fun next _ => RootNext flags m i next := by
  unfold rootTurn
  simp only
  by_cases hh : mapped_range flags i.root_address 36 = true
  swap
  · grind [fallBack_spec]
  rw [if_neg (not_not.mpr hh)]
  have hth : (36 : UInt32).toNat = 36 := rfl
  refine meets_word32 ((mapped_of_mapped_range hh).inside (by omega) (by omega)) ?_
  split
  · exact fallBack_spec hrs hm hf
  rename_i hw
  have hfr : ∀ t, some (signature (if i.uses_xsdt then "XSDT" else "RSDT")) = some t →
      t.length = 4 := by
    intro t ht
    cases ht
    cases i.uses_xsdt <;> decide
  refine meets_bind (sdt_blob_spec hfr (mapped_of_mapped_range (not_not.mp hw)))
    fun r s' hr => ?_
  split
  · exact fallBack_spec hrs hm hf
  rename_i ha
  refine meets_pure ⟨fun f hfn => ?_, hm⟩
  cases hfn
  exact hr (not_not.mp ha)

theorem root_spec {r : Nat} {i : RsdpInfo} (hrs : Mapped flags r 20) :
    Meets (·.Inside (identityMapped flags)) m s (loop (rootTurn flags r) fuel (i, 0))
      fun rt _ => RootNext flags m i (.inr rt) := by
  refine meets_loop (fun a _ => a.2 ≤ 1 ∧ (a.1.uses_xsdt = true → a.2 = 0))
    (fun a => if a.1.uses_xsdt then 1 else 0) ?_ ⟨Nat.zero_le 1, fun _ => rfl⟩ ?_
  · rintro ⟨an, j⟩ s' ⟨hm, hf⟩
    refine (rootTurn_spec hrs hm hf).mono fun next _ hn => ?_
    match next, hn with
    | .inl (again, jumps'), ⟨hr, hx, hm'⟩ =>
      refine ⟨⟨hm', fun h => ?_⟩, ?_⟩
      · rw [hr] at h
        cases h
      · show (if again.uses_xsdt = true then 1 else 0) < if an.uses_xsdt = true then 1 else 0
        rw [hr, if_pos hx]
        decide
    | .inr (rt, jumps'), hn => exact hn
  · simp only
    split <;> omega

omit hfuel in
theorem rsdpSize_spec {r : UInt64} (h : Mapped flags r.toNat 20) :
    Meets (·.Inside (identityMapped flags)) m s (rsdpSize flags r)
      fun sz _ => ∀ n, sz = some n → Mapped flags r.toNat n.toNat := by
  unfold rsdpSize
  refine meets_byte (h.inside (by omega) (by omega)) ?_
  split
  swap
  · refine meets_pure fun n hn => ?_
    cases hn
    exact h
  refine meets_ite (fun _ => meets_pure nofun) fun hh => ?_
  have ht : (36 : UInt32).toNat = 36 := rfl
  have hm := mapped_of_mapped_range (not_not.mp hh)
  refine meets_word32 (hm.inside (by omega) (by omega)) ?_
  refine meets_ite (fun _ => meets_pure nofun) fun hl => ?_
  refine meets_pure fun n hn => ?_
  cases hn
  exact mapped_of_mapped_range (not_not.mp (not_or.mp (not_or.mp hl).2).2)

theorem acpi_init_spec (r : UInt64) :
    Meets (·.Inside (identityMapped flags)) m s (acpi_init fuel flags r)
      fun rs _ => rs.2 ≤ 1 := by
  refine meets_modify ?_
  refine meets_ite (fun _ => meets_pure (Nat.zero_le 1)) fun hr => ?_
  have hr : Mapped flags r.toNat 20 := mapped_of_mapped_range (not_not.mp hr)
  refine meets_bind (rsdpSize_spec hr) fun sz s hs => ?_
  cases sz with
  | none => exact meets_pure (Nat.zero_le 1)
  | some sz =>
    refine meets_bind (rsdp_blob_fine (hs sz rfl)) fun i s _ => ?_
    cases i with
    | none => exact meets_pure (Nat.zero_le 1)
    | some i =>
      refine meets_bind (root_spec hfuel hr) fun rt s hrt => ?_
      match rt, hrt with
      | (none, jumps), ⟨_, hm⟩ => exact meets_pure hm
      | (some found, jumps), ⟨ht, hm⟩ =>
        exact meets_bind (readRoot_fine hfuel (ht found rfl)) fun _ _ _ => meets_pure hm

end

/-- Whatever memory holds, `acpi_init` reads only bytes between the first page and the limit,
and ends after at most one jump back, with fuel for the longest table. -/
theorem acpi_init_stays_in_mapped_memory :
    ∃ enough, ∀ fuel ≥ enough, ∀ (m : Mem) (flags rsdp_address : UInt64) (before : Acpi),
      (∀ r ∈ (acpi_init fuel flags rsdp_address m before).2, ∀ a, r.Has a →
        0x1000 ≤ a ∧ a < (identityLimit flags).toNat) ∧
      ∃ result jumps after,
        (acpi_init fuel flags rsdp_address m before).1 = some ((result, jumps), after) ∧
        jumps ≤ 1 := by
  refine ⟨1024 * 1024 + 1, fun fuel hfuel m flags rsdp_address before => ?_⟩
  have hmeets : Meets (·.Inside (identityMapped flags)) m before
      (acpi_init fuel flags rsdp_address) fun result _ => result.2 ≤ 1 :=
    acpi_init_spec hfuel rsdp_address
  obtain ⟨hreads, ⟨result, jumps⟩, after, hrun, hmost⟩ := hmeets
  refine ⟨fun r hr a ha => ?_, result, jumps, after, hrun, hmost⟩
  have hin := hreads r hr a ha
  have hlimit := limit_le flags
  obtain ⟨hlow, hhigh⟩ := hin
  simp only [identityMapped] at hlow hhigh
  omega

end mvh.acpi
