-- Which root table `acpi_init` takes.
import MvhKernel.AcpiRegister
import MvhKernel.ByteLists

open flat_memory ranges scan

namespace mvh.acpi

/-! ## Root tables -/

def SumsToZero (m : Mem) (a n : Nat) : Prop := (slice m a n).sum = 0

instance (m : Mem) (a n : Nat) : Decidable (SumsToZero m a n) :=
  inferInstanceAs (Decidable ((slice m a n).sum = 0))

/-- A root pointer of the second revision or a later one that passes all checks. -/
structure ValidRsdp (flags : UInt64) (m : Mem) (rsdp : Nat) : Prop where
  mapped : Mapped flags rsdp (load32 m (rsdp + 20)).toNat
  signature : slice m rsdp 8 = rsdpSignature
  checksum : SumsToZero m rsdp 20
  revision : 2 ≤ m (rsdp + 15)
  header : 36 ≤ (load32 m (rsdp + 20)).toNat
  small : (load32 m (rsdp + 20)).toNat ≤ 4096
  extended : SumsToZero m rsdp (load32 m (rsdp + 20)).toNat

def rootName (uses_xsdt : Bool) : List UInt8 := signature (if uses_xsdt then "XSDT" else "RSDT")

/-- The root table at an address passes the checks before the fallback. -/
structure SoundRoot (flags : UInt64) (m : Mem) (uses_xsdt : Bool) (root : Nat) : Prop where
  table : IsTable flags m root
  signature : slice m root 4 = rootName uses_xsdt
  checksum : SumsToZero m root (load32 m (root + 4)).toNat

def WholeEntries (m : Mem) (uses_xsdt : Bool) (root : Nat) : Prop :=
  (entry_size uses_xsdt).toNat ∣ (load32 m (root + 4)).toNat - 36

instance (m : Mem) (uses_xsdt : Bool) (root : Nat) : Decidable (WholeEntries m uses_xsdt root) :=
  inferInstanceAs (Decidable (_ ∣ _))

structure WellFormedRoot (flags : UInt64) (m : Mem) (uses_xsdt : Bool) (root : Nat) : Prop where
  sound : SoundRoot flags m uses_xsdt root
  whole : WholeEntries m uses_xsdt root

/-- The root table that the root pointer names, as a place in memory. -/
def rootPlace (m : Mem) (rsdp : Nat) (uses_xsdt : Bool) : Nat := (rootAddress m rsdp uses_xsdt).toNat

/-- The state is the one after the entries of this root table, one after the other, on cleared data. -/
def Uses (fuel : Nat) (flags : UInt64) (m : Mem) (rsdp : Nat) (uses_xsdt : Bool) (after : Acpi) : Prop :=
  ∃ listed : Acpi,
    (registerEntries fuel flags (rootPlace m rsdp uses_xsdt) uses_xsdt 0 (rootEntries m rsdp uses_xsdt).toNat m
      { state := { revision := m (rsdp + 15), uses_xsdt := uses_xsdt } }).1 = some ((), listed) ∧
    after = { listed with state := { listed.state with available := 1 } }

/-- What a kernel with a fallback does: the XSDT when it is well formed, else the RSDT when that is,
else nothing. -/
structure TakesRoot (fuel : Nat) (flags : UInt64) (m : Mem) (rsdp : Nat) (result : Int) (after : Acpi) : Prop where
  xsdt : WellFormedRoot flags m true (rootPlace m rsdp true) → result = 0 ∧ Uses fuel flags m rsdp true after
  rsdt : ¬ WellFormedRoot flags m true (rootPlace m rsdp true) →
    WellFormedRoot flags m false (rootPlace m rsdp false) → result = 0 ∧ Uses fuel flags m rsdp false after
  neither : ¬ WellFormedRoot flags m true (rootPlace m rsdp true) →
    ¬ WellFormedRoot flags m false (rootPlace m rsdp false) → result = -1 ∧ after.state.available = 0

/-! ## The checks -/

section
variable {flags : UInt64} {m : Mem} {s : Acpi}

theorem bytes_equal_leads (a : Nat) (t : List UInt8) :
    Leads m s (bytes_equal a t) fun k s' => (k = true ↔ slice m a t.length = t) ∧ s' = s := by
  induction t generalizing a with
  | nil => exact leads_pure ⟨by simp, rfl⟩
  | cons c rest ih =>
    rw [List.length_cons, slice_succ]
    refine leads_byte (leads_ite (fun ho => leads_pure ⟨?_, rfl⟩) fun hs => ?_)
    · simp [ho]
    grind

theorem sumBytes_leads (a n : Nat) (sum : UInt8) :
    Leads m s (sumBytes a n sum) fun t s' => t = sum + (slice m a n).sum ∧ s' = s := by
  induction n generalizing a sum with
  | zero => exact leads_pure ⟨(UInt8.add_zero sum).symm, rfl⟩
  | succ n ih =>
    refine leads_byte ((ih (a + 1) _).mono fun t s' ht => ⟨?_, ht.2⟩)
    rw [ht.1, slice_succ, List.sum_cons, UInt8.add_assoc]

theorem checksum_leads {a : Nat} {l : UInt32} (ha : a ≠ 0) (hl : 0 < l.toNat) :
    Leads m s (acpi_checksum_valid a l) fun v s' =>
      (v = true ↔ SumsToZero m a l.toNat) ∧ s' = s := by
  unfold acpi_checksum_valid
  have hs : l ≠ 0 := by
    rintro rfl
    exact absurd hl (by decide)
  rw [if_neg (by simp [ha, hs])]
  refine leads_bind (sumBytes_leads a _ 0) fun t s' ht => leads_pure ⟨?_, ht.2⟩
  rw [ht.1, UInt8.zero_add, beq_iff_eq]
  rfl

theorem sdt_blob_leads {a : Nat} {u : Bool} (h : Mapped flags a (load32 m (a + 4)).toNat) :
    Leads m s (acpi_validate_sdt_blob a (load32 m (a + 4)) (some (rootName u))) fun r s' =>
      (r = 0 ↔ SoundRoot flags m u a) ∧ s' = s := by
  unfold acpi_validate_sdt_blob
  have ha : a ≠ 0 := by
    have := h.low
    omega
  have hth : (36 : UInt32).toNat = 36 := rfl
  have hm : ACPI_MAX_TABLE_SIZE.toNat = 1024 * 1024 := rfl
  have hr : ¬ SoundRoot flags m u a → ((-1 : Int) = 0 ↔ SoundRoot flags m u a) ∧ s = s := by simp
  refine leads_ite (fun hsh => leads_pure (hr fun hs => ?_)) fun _ => leads_word32 ?_
  · have hh := hs.table.header
    grind
  refine leads_ite (fun hl => leads_pure (hr fun hs => ?_)) fun hl => ?_
  · have hh := hs.table.header
    have hsl := hs.table.small
    grind
  have ht : IsTable flags m a := by
    simp only [gt_iff_lt, UInt32.lt_iff_toNat_lt, not_or, not_lt] at hl
    exact ⟨h, by omega, by omega⟩
  have hf : (rootName u).length = 4 := by cases u <;> decide
  refine leads_bind (bytes_equal_leads a _) fun k s1 hk => ?_
  obtain ⟨hk, rfl⟩ := hk
  rw [hf] at hk
  refine leads_ite (fun ho => leads_pure (hr fun hs => ho (hk.mpr hs.signature)))
    fun hsm => ?_
  refine leads_bind (checksum_leads ha (Nat.lt_of_lt_of_le (by decide) ht.header)) fun v s2 hv => ?_
  obtain ⟨hv, rfl⟩ := hv
  cases v with
  | false =>
    have hw : ¬ SumsToZero m a (load32 m (a + 4)).toNat := by grind
    exact leads_pure (hr fun hs => hw hs.checksum)
  | true =>
    exact leads_pure ⟨iff_of_true rfl ⟨ht, hk.mp (not_not.mp hsm), hv.mp rfl⟩, rfl⟩

theorem SoundRoot.mapped_range {u : Bool} {r : UInt64} {l : UInt32}
    (h : SoundRoot flags m u r.toNat) (hp : 0 < l.toNat)
    (hl : l.toNat ≤ (load32 m (r.toNat + 4)).toNat) : mapped_range flags r l = true := by
  have hh := h.table.mapped.high
  exact (mapped_range_iff _ _ _).mpr ⟨h.table.mapped.low, hp, by omega⟩

theorem not_sound_at_zero (u : Bool) : ¬ SoundRoot flags m u 0 := fun h =>
  absurd h.table.mapped.low (by decide)

/-! ## The search -/

/-- What the search knows of the root that it looks at: the RSDT is looked at only when the XSDT is
not sound. -/
structure Candidate (flags : UInt64) (m : Mem) (rsdp : Nat) (info : RsdpInfo) : Prop where
  named : RootNamed m rsdp info
  revision : info.revision = m (rsdp + 15)
  second : info.uses_xsdt = false → ¬ SoundRoot flags m true (rootPlace m rsdp true)

def NoRoot (flags : UInt64) (m : Mem) (rsdp : Nat) : Prop :=
  ∀ uses_xsdt, ¬ SoundRoot flags m uses_xsdt (rootPlace m rsdp uses_xsdt)

theorem noRoot_of {rsdp : Nat} (hx : ¬ SoundRoot flags m true (rootPlace m rsdp true))
    (hr : ¬ SoundRoot flags m false (rootPlace m rsdp false)) : NoRoot flags m rsdp := by
  intro u
  cases u with
  | true => exact hx
  | false => exact hr

theorem Candidate.place {r : Nat} {i : RsdpInfo} (h : Candidate flags m r i) :
    i.root_address.toNat = rootPlace m r i.uses_xsdt :=
  congrArg UInt64.toNat h.named

theorem no_rsdt {r : Nat} (h : ¬ load32 m (r + 16) ≠ 0) :
    ¬ SoundRoot flags m false (rootPlace m r false) := by
  have hz : rootPlace m r false = 0 := by
    show ((load32 m (r + 16)).toUInt64).toNat = 0
    rw [not_not.mp h]
    rfl
  rw [hz]
  exact not_sound_at_zero false

theorem no_xsdt {r : Nat} (h : ¬ load64 m (r + 24) ≠ 0) :
    ¬ SoundRoot flags m true (rootPlace m r true) := by
  have hz : rootPlace m r true = 0 := by
    show (load64 m (r + 24)).toNat = 0
    rw [not_not.mp h]
    rfl
  rw [hz]
  exact not_sound_at_zero true

theorem rsdpSize_leads {r : UInt64} (h : ValidRsdp flags m r.toNat) :
    Leads m s (rsdpSize flags r) fun sz s' => sz = some (load32 m (r.toNat + 20)) ∧ s' = s := by
  have hhg := h.mapped.high
  have hh := h.header
  have hs := h.small
  have hm : ∀ l : UInt32, 0 < l.toNat → l.toNat ≤ (load32 m (r.toNat + 20)).toNat →
      mapped_range flags r l = true := fun l hp hl =>
    (mapped_range_iff _ _ _).mpr ⟨h.mapped.low, hp, by omega⟩
  have ht : (36 : UInt32).toNat = 36 := rfl
  have hpg : (4096 : UInt32).toNat = 4096 := rfl
  unfold rsdpSize
  refine leads_byte ?_
  rw [if_pos h.revision, if_neg (not_not.mpr (hm 36 (by decide) hh))]
  grind [UInt32.lt_iff_toNat_lt, leads_word32, leads_pure]

theorem valid_rsdp_leads {r : Nat} (h : ValidRsdp flags m r) :
    Leads m s (acpi_validate_rsdp_blob r (load32 m (r + 20))) fun i s' =>
      (i = none → NoRoot flags m r) ∧ (∀ f, i = some f → Candidate flags m r f) ∧ s' = s := by
  have hlw := h.mapped.low
  have hh := h.header
  have hz : r ≠ 0 := by omega
  have htw : (20 : UInt32).toNat = 20 := rfl
  have ht : (36 : UInt32).toNat = 36 := rfl
  have hl : ∀ n : UInt32, n.toNat ≤ 36 → ¬ load32 m (r + 20) < n := by grind
  unfold acpi_validate_rsdp_blob
  rw [if_neg (not_or.mpr ⟨hz, hl 20 (by decide)⟩)]
  refine leads_bind (bytes_equal_leads r _) fun k s1 hk => ?_
  obtain ⟨hk, rfl⟩ := hk
  rw [if_neg (not_not.mpr (hk.mpr h.signature))]
  refine leads_bind (checksum_leads hz (by decide)) fun v s2 hv => ?_
  obtain ⟨hv, rfl⟩ := hv
  rw [if_neg (not_not.mpr (hv.mpr h.checksum))]
  refine leads_byte (leads_bind (readBytes_still _ _) fun o s3 hs3 => leads_word32 ?_)
  subst hs3
  rw [if_pos h.revision, if_neg (hl 36 (le_refl 36))]
  refine leads_word32 ?_
  rw [if_neg (not_or.mpr ⟨hl 36 (le_refl 36), UInt32.lt_irrefl _⟩)]
  refine leads_bind (checksum_leads hz (by omega)) fun v s4 hv => ?_
  obtain ⟨hv, rfl⟩ := hv
  rw [if_neg (not_not.mpr (hv.mpr h.extended))]
  refine leads_word64 (leads_pure ?_)
  by_cases hx : load64 m (r + 24) ≠ 0
  · rw [if_pos hx, if_pos hx]
    refine ⟨nofun, fun f hf => ?_, rfl⟩
    cases hf
    exact ⟨by simp [RootNamed, rootAddress, hx], rfl, fun hs => by simp [hx] at hs⟩
  rw [if_neg hx]
  by_cases hr : load32 m (r + 16) ≠ 0
  · have hsm : (load32 m (r + 16)).toUInt64 ≠ 0 := by
      intro hz
      refine hr (UInt32.toNat_inj.mp ?_)
      rw [← UInt32.toNat_toUInt64, hz]
      rfl
    rw [if_pos hsm]
    refine ⟨nofun, fun f hf => ?_, rfl⟩
    cases hf
    exact ⟨by simp [RootNamed, rootAddress, not_not.mp hx], rfl, fun _ => no_xsdt hx⟩
  · rw [if_neg (by rw [not_not.mp hr]; decide)]
    exact ⟨fun _ => noRoot_of (no_xsdt hx) (no_rsdt hr), nofun, rfl⟩

def SearchFinds (flags : UInt64) (m : Mem) (rsdp : Nat) (s : Acpi) :
    (RsdpInfo × Nat) ⊕ (Option RsdpInfo × Nat) → Acpi → Prop
  | .inl (info, _), s' => Candidate flags m rsdp info ∧ s' = s
  | .inr (none, _), s' => NoRoot flags m rsdp ∧ s' = s
  | .inr (some info, _), s' =>
    Candidate flags m rsdp info ∧ SoundRoot flags m info.uses_xsdt info.root_address.toNat ∧ s' = s

theorem fallBack_finds {r : Nat} {i : RsdpInfo} (h : Candidate flags m r i) (j : Nat)
    (hd : ¬ SoundRoot flags m i.uses_xsdt i.root_address.toNat) :
    Leads m s (fallBack r i j) (SearchFinds flags m r s) := by
  rw [h.place] at hd
  unfold fallBack
  refine leads_ite (fun hr => leads_pure ⟨?_, rfl⟩) fun hx => ?_
  · have hr : i.uses_xsdt = false := Bool.eq_false_iff.mpr hr
    rw [hr] at hd
    exact noRoot_of (h.second hr) hd
  rw [not_not.mp hx] at hd
  refine leads_word32 (leads_ite (fun _ => leads_pure ⟨?_, rfl⟩) fun hr => leads_pure ⟨?_, rfl⟩)
  · exact ⟨rfl, h.revision, fun _ => hd⟩
  · exact noRoot_of hd (no_rsdt hr)

theorem rootTurn_finds {rs : Nat} {i : RsdpInfo} (h : Candidate flags m rs i) (j : Nat) :
    Leads m s (rootTurn flags rs (i, j)) (SearchFinds flags m rs s) := by
  unfold rootTurn
  dsimp only
  refine leads_ite (fun hu => fallBack_finds h j fun hs => ?_) fun _ => leads_word32 ?_
  · exact hu (hs.mapped_range (by decide) hs.table.header)
  refine leads_ite (fun hu => fallBack_finds h j fun hs => ?_) fun hm => ?_
  · have hh := hs.table.header
    exact hu (hs.mapped_range (by omega) (le_refl _))
  refine leads_bind (sdt_blob_leads (mapped_of_mapped_range (not_not.mp hm))) fun r s1 hr => ?_
  obtain ⟨hr, rfl⟩ := hr
  refine leads_ite (fun hrf => fallBack_finds h j fun hs => ?_) fun ha => leads_pure ?_
  · exact hrf (hr.mpr hs)
  · exact ⟨h, hr.mp (not_not.mp ha), rfl⟩

theorem search_finds {f r : Nat} {i : RsdpInfo} (h : Candidate flags m r i) :
    Leads m s (loop (rootTurn flags r) f (i, 0)) fun rt s' =>
      SearchFinds flags m r s (.inr rt) s' := by
  refine leads_loop (fun a ar => SearchFinds flags m r s (.inl a) ar) ?_ ⟨h, rfl⟩
  rintro ⟨an, j⟩ _ ⟨hc, rfl⟩
  refine (rootTurn_finds hc j).mono fun next s' hn => ?_
  grind

/-! ## The root that is taken -/

theorem whole_iff {u : Bool} {r : Nat} (h : IsTable flags m r) :
    WholeEntries m u r ↔ (load32 m (r + 4) - 36) % entry_size u = 0 := by
  have hs : (load32 m (r + 4) - 36).toNat = (load32 m (r + 4)).toNat - 36 :=
    UInt32.toNat_sub_of_le _ _ (UInt32.le_iff_toNat_le.mpr h.header)
  rw [← UInt32.toNat_inj, UInt32.toNat_mod, hs, UInt32.toNat_zero]
  exact Nat.dvd_iff_mod_eq_zero

theorem readRoot_takes {f rs : Nat} {i : RsdpInfo} (h : Candidate flags m rs i)
    (hs : SoundRoot flags m i.uses_xsdt i.root_address.toNat) :
    Leads m {} (readRoot f flags i) fun r after =>
      (WholeEntries m i.uses_xsdt i.root_address.toNat →
        r = 0 ∧ Uses f flags m rs i.uses_xsdt after) ∧
      (¬ WholeEntries m i.uses_xsdt i.root_address.toNat → r = -1 ∧ after.state.available = 0) := by
  rw [whole_iff hs.table]
  unfold readRoot
  refine leads_word32 (leads_ite (fun ht => leads_pure ⟨fun hw => absurd hw ht, fun _ => ⟨rfl, rfl⟩⟩)
    fun hw => leads_modify ?_)
  have he : rootEntries m rs i.uses_xsdt =
      (load32 m (i.root_address.toNat + 4) - 36) / entry_size i.uses_xsdt := by
    rw [h.place]
    rfl
  rw [h.place] at hw
  rw [← he, h.place, h.revision]
  -- the loop over the entries is left as it is
  refine leads_bind (fun _ _ hl => hl) fun _ listed hl => leads_modify (leads_pure ?_)
  exact ⟨fun _ => ⟨rfl, listed, hl, rfl⟩, fun ht => absurd (not_not.mp hw) ht⟩

/-- How `acpi_init` ends: with the first sound root table, if its entries are whole. -/
inductive Outcome (fuel : Nat) (flags : UInt64) (m : Mem) (rsdp : Nat) : Int → Acpi → Prop
  | taken {uses_xsdt : Bool} {after : Acpi} (first : uses_xsdt = false → ¬ SoundRoot flags m true (rootPlace m rsdp true))
      (sound : SoundRoot flags m uses_xsdt (rootPlace m rsdp uses_xsdt))
      (whole : WholeEntries m uses_xsdt (rootPlace m rsdp uses_xsdt))
      (uses : Uses fuel flags m rsdp uses_xsdt after) : Outcome fuel flags m rsdp 0 after
  | torn {uses_xsdt : Bool} {after : Acpi} (first : uses_xsdt = false → ¬ SoundRoot flags m true (rootPlace m rsdp true))
      (torn : ¬ WholeEntries m uses_xsdt (rootPlace m rsdp uses_xsdt))
      (sound : SoundRoot flags m uses_xsdt (rootPlace m rsdp uses_xsdt))
      (unavailable : after.state.available = 0) : Outcome fuel flags m rsdp (-1) after
  | none {after : Acpi} (none : NoRoot flags m rsdp) (unavailable : after.state.available = 0) :
      Outcome fuel flags m rsdp (-1) after

theorem acpi_init_outcome {f : Nat} {rs : UInt64} (h : ValidRsdp flags m rs.toNat) :
    Leads m s (acpi_init f flags rs) fun r after => Outcome f flags m rs.toNat r.1 after := by
  have hhg := h.mapped.high
  have hh := h.header
  have htw : (20 : UInt32).toNat = 20 := rfl
  have hm : mapped_range flags rs 20 = true :=
    (mapped_range_iff _ _ _).mpr ⟨h.mapped.low, by decide, by omega⟩
  unfold acpi_init
  refine leads_modify ?_
  rw [if_neg (not_not.mpr hm)]
  refine leads_bind (rsdpSize_leads h) fun sz s1 hsz => ?_
  obtain ⟨rfl, rfl⟩ := hsz
  refine leads_bind (valid_rsdp_leads h) fun i s2 hi => ?_
  obtain ⟨hnn, hc, rfl⟩ := hi
  cases i with
  | none => exact leads_pure (.none (hnn rfl) rfl)
  | some i =>
    refine leads_bind (search_finds (hc i rfl)) fun rt s3 hr => ?_
    match rt, hr with
    | (none, jumps), ⟨hn, hs3⟩ =>
      rw [hs3]
      exact leads_pure (.none hn rfl)
    | (some found, jumps), ⟨hf, hs, hs3⟩ =>
      rw [hs3]
      refine leads_bind (readRoot_takes hf hs) fun r after ht => leads_pure ?_
      rw [hf.place] at hs ht
      by_cases hw : WholeEntries m found.uses_xsdt (rootPlace m rs.toNat found.uses_xsdt)
      · obtain ⟨rfl, hus⟩ := ht.1 hw
        exact .taken hf.second hs hw hus
      · obtain ⟨rfl, hu⟩ := ht.2 hw
        exact .torn hf.second hw hs hu

end

/-- The XSDT passes every check before the fallback and is torn at its end. -/
structure TornXsdt (flags : UInt64) (m : Mem) (rsdp : Nat) : Prop where
  sound : SoundRoot flags m true (rootPlace m rsdp true)
  torn : ¬ WholeEntries m true (rootPlace m rsdp true)

theorem Outcome.takes_iff {fuel rsdp : Nat} {flags : UInt64} {m : Mem} {r : Int} {after : Acpi}
    (h : Outcome fuel flags m rsdp r after) :
    TakesRoot fuel flags m rsdp r after ↔
      ¬ (TornXsdt flags m rsdp ∧ WellFormedRoot flags m false (rootPlace m rsdp false)) := by
  cases h with
  | @taken us _ first sn w uses =>
    cases us with
    | true =>
      have hx : WellFormedRoot flags m true (rootPlace m rsdp true) := ⟨sn, w⟩
      refine iff_of_true ⟨fun _ => ⟨rfl, uses⟩, fun hn => absurd hx hn, fun hn => absurd hx hn⟩ ?_
      exact fun ht => ht.1.torn w
    | false =>
      have hr : WellFormedRoot flags m false (rootPlace m rsdp false) := ⟨sn, w⟩
      refine iff_of_true ⟨fun hx => absurd hx.sound (first rfl), fun _ _ => ⟨rfl, uses⟩, ?_⟩ ?_
      · exact fun _ hn => absurd hr hn
      · exact fun ht => first rfl ht.1.sound
  | @torn us _ first torn sn u =>
    cases us with
    | true =>
      have hx : ¬ WellFormedRoot flags m true (rootPlace m rsdp true) := fun hw => torn hw.whole
      constructor
      · rintro htk ⟨_, hr⟩
        exact absurd (htk.rsdt hx hr).1 (by decide)
      · intro hn
        refine ⟨fun hw => absurd hw hx, fun _ hr => ?_, fun _ _ => ⟨rfl, u⟩⟩
        exact absurd ⟨⟨sn, torn⟩, hr⟩ hn
    | false =>
      refine iff_of_true ⟨fun hx => absurd hx.sound (first rfl), fun _ hr => absurd hr.whole torn,
        fun _ _ => ⟨rfl, u⟩⟩ fun ht => first rfl ht.1.sound
  | none none u =>
    refine iff_of_true ⟨fun hx => absurd hx.sound (none true), fun _ hr => absurd hr.sound (none false),
      fun _ _ => ⟨rfl, u⟩⟩ fun ht => none true ht.1.sound

/-- With a valid root pointer `acpi_init` takes the XSDT, else the RSDT, else nothing, but for the one
case that the XSDT is torn and the RSDT is well formed. -/
theorem the_root_is_taken_iff {fuel : Nat} (hfuel : 1024 * 1024 < fuel) {flags rsdp_address : UInt64} {m : Mem}
    (before : Acpi) (h : ValidRsdp flags m rsdp_address.toNat) :
    ∃ result jumps after, (acpi_init fuel flags rsdp_address m before).1 = some ((result, jumps), after) ∧
      (TakesRoot fuel flags m rsdp_address.toNat result after ↔
        ¬ (TornXsdt flags m rsdp_address.toNat ∧
          WellFormedRoot flags m false (rootPlace m rsdp_address.toNat false))) := by
  have hends : Meets (·.Inside (identityMapped flags)) m before (acpi_init fuel flags rsdp_address)
      fun result _ => result.2 ≤ 1 := acpi_init_spec hfuel rsdp_address
  obtain ⟨-, ⟨result, jumps⟩, after, hrun, -⟩ := hends
  exact ⟨result, jumps, after, hrun, (acpi_init_outcome h _ _ hrun).takes_iff⟩

/-- Memory with a root pointer at 0x1000, an XSDT at 0x2000 with half an entry after the header,
and an empty RSDT at 0x3000. -/
def firmware (right : Bool) : Mem := fun a =>
  if a < 0x2000 then ofList [82, 83, 68, 32, 80, 84, 82, 32, 217, 77, 86, 72, 75, 82, 78, 2, 0, 48, 0, 0,
    36, 0, 0, 0, 0, 32, 0, 0, 0, 0, 0, 0, 188, 0, 0, 0] (a - 0x1000)
  else if a < 0x3000 then ofList [88, 83, 68, 84, 40, 0, 0, 0, 1, if right then 148 else 149] (a - 0x2000)
  else ofList [82, 83, 68, 84, 36, 0, 0, 0, 1, 158] (a - 0x3000)

theorem firmware_rsdp : ∀ right, ValidRsdp 0 (firmware right) 0x1000 := by
  intro right
  refine ⟨⟨by decide, ?_⟩, ?_, ?_, ?_, ?_, ?_, ?_⟩ <;> revert right <;> decide +kernel

theorem firmware_rsdt :
    ∀ right, WellFormedRoot 0 (firmware right) false (rootPlace (firmware right) 0x1000 false) := by
  intro right
  refine ⟨⟨⟨⟨?_, ?_⟩, ?_, ?_⟩, ?_, ?_⟩, ?_⟩ <;> revert right <;> decide +kernel

/-- After an XSDT with a wrong checksum the RSDT is used. -/
theorem the_rsdt_is_used : ∃ result jumps after,
    (acpi_init (1024 * 1024 + 1) 0 0x1000 (firmware false) {}).1 = some ((result, jumps), after) ∧
      result = 0 ∧ Uses (1024 * 1024 + 1) 0 (firmware false) 0x1000 false after := by
  have hxsdt : ¬ SoundRoot 0 (firmware false) true (rootPlace (firmware false) 0x1000 true) := fun hsound =>
    absurd hsound.checksum (by decide +kernel)
  have hfuel : 1024 * 1024 < 1024 * 1024 + 1 := Nat.lt_succ_self _
  have hrsdp : ValidRsdp 0 (firmware false) (0x1000 : UInt64).toNat := firmware_rsdp false
  obtain ⟨result, jumps, after, hrun, htakes⟩ := the_root_is_taken_iff hfuel {} hrsdp
  refine ⟨result, jumps, after, hrun, (htakes.mpr ?_).rsdt (fun hwell => hxsdt hwell.sound) (firmware_rsdt false)⟩
  exact fun htorn => hxsdt htorn.1.sound

/-- After an XSDT with half an entry nothing is used, though the RSDT is well formed. -/
theorem a_torn_xsdt_is_not_replaced :
    ValidRsdp 0 (firmware true) 0x1000 ∧
    ¬ WellFormedRoot 0 (firmware true) true (rootPlace (firmware true) 0x1000 true) ∧
    WellFormedRoot 0 (firmware true) false (rootPlace (firmware true) 0x1000 false) ∧
    ∀ fuel, ((acpi_init (fuel + 1) 0 0x1000 (firmware true) {}).1.map fun ended => (ended.1.1, ended.2.state.available)) =
      some (-1, 0) := by
  refine ⟨firmware_rsdp true, fun hwell => absurd hwell.whole (by decide +kernel), firmware_rsdt true, fun fuel => ?_⟩
  rfl

end mvh.acpi
