-- The high precision timer (hpet.c): the start of its counter, and the time that is read
-- from it.
import MvhKernel.Acpi

namespace mvh.hpet

abbrev HPET_CAPABILITIES : UInt32 := 0x000
abbrev HPET_CONFIGURATION : UInt32 := 0x010
abbrev HPET_MAIN_COUNTER : UInt32 := 0x0F0
abbrev HPET_ENABLE : UInt64 := 1

abbrev REGISTER_FLAGS : UInt64 := 0x8000000000000012

/-! ## The device -/

/-- The registers that the driver uses. -/
structure Device where
  capabilities : UInt64
  configuration : UInt64
  main_counter : UInt64

/-- The number of bits of the main counter, as the capabilities report it. -/
def Device.width (d : Device) : Nat := if d.capabilities &&& 0x2000 ≠ 0 then 64 else 32

def Device.elapse (d : Device) (periods : Nat) : Device :=
  if d.configuration &&& HPET_ENABLE = 0 then d
  else { d with main_counter := UInt64.ofNat ((d.main_counter.toNat + periods) % 2 ^ d.width) }

def read64 (d : Device) (offset : UInt32) : UInt64 :=
  if offset = HPET_CAPABILITIES then d.capabilities
  else if offset = HPET_CONFIGURATION then d.configuration
  else if offset = HPET_MAIN_COUNTER then d.main_counter
  else 0

/-- The capabilities cannot be written, and the counter takes as many bits as it has. -/
def write64 (d : Device) (offset : UInt32) (value : UInt64) : Device :=
  if offset = HPET_CONFIGURATION then { d with configuration := value }
  else if offset = HPET_MAIN_COUNTER then
    { d with main_counter := UInt64.ofNat (value.toNat % 2 ^ d.width) }
  else d

/-! ## The driver -/

structure Status where
  available : UInt8 := 0
  enabled : UInt8 := 0
  counter_64bit : Bool := false
  legacy_route_capable : Bool := false
  timer_count : UInt8 := 0
  revision : UInt8 := 0
  address : UInt64 := 0
  period_femtoseconds : UInt64 := 0
  frequency_hz : UInt64 := 0

/-- The static data of the driver. -/
structure Hpet where
  registers : UInt64 := 0
  state : Status := {}

section Calls

variable {V : Type} (vmm_map_page : V → UInt64 → UInt64 → UInt64 → V × Int)

def hpet_init (firmware : acpi.Status) (d : Device) (vmm : V) : Int × Hpet × Device × V :=
  if firmware.available = 0 ∨ firmware.hpet_address = 0 ∨ firmware.hpet_address &&& 0xFFF ≠ 0 then
    (-1, {}, d, vmm)
  else
    let (vmm, mapped) :=
      vmm_map_page vmm firmware.hpet_address firmware.hpet_address REGISTER_FLAGS
    if mapped ≠ 0 then (-1, {}, d, vmm)
    else
      let capabilities := read64 d HPET_CAPABILITIES
      let period := capabilities >>> 32
      if period = 0 ∨ period > 1000000000 then (-1, {}, d, vmm)
      else
        let d := write64 d HPET_CONFIGURATION (read64 d HPET_CONFIGURATION &&& ~~~HPET_ENABLE)
        let d := write64 d HPET_MAIN_COUNTER 0
        let d := write64 d HPET_CONFIGURATION (read64 d HPET_CONFIGURATION ||| HPET_ENABLE)
        let state : Status :=
          { available := 1
            enabled := 1
            revision := capabilities.toUInt8
            timer_count := ((capabilities >>> 8 &&& 0x1F) + 1).toUInt8
            counter_64bit := capabilities &&& 0x2000 ≠ 0
            legacy_route_capable := capabilities &&& 0x8000 ≠ 0
            address := firmware.hpet_address
            period_femtoseconds := period
            frequency_hz := 1000000000000000 / period }
        (0, { registers := firmware.hpet_address, state := state }, d, vmm)

end Calls

def hpet_status (s : Hpet) : Status := s.state

def hpet_ticks (s : Hpet) (d : Device) : UInt64 :=
  if s.state.enabled ≠ 0 then read64 d HPET_MAIN_COUNTER else 0

def hpet_nanoseconds (s : Hpet) (d : Device) : UInt64 :=
  let ticks := hpet_ticks s d
  ticks / 1000000 * s.state.period_femtoseconds
    + ticks % 1000000 * s.state.period_femtoseconds / 1000000

/-- The values of successive calls of `hpet_nanoseconds`. -/
def readings (s : Hpet) : Device → Nat → List Nat → List UInt64
  | _, _, [] => []
  | d, now, elapsed :: rest =>
    let d := d.elapse (elapsed - now)
    hpet_nanoseconds s d :: readings s d elapsed rest

def nanosecondsOf (period elapsed : Nat) : Nat := elapsed * period / 1000000

/-! ## The running counter -/

/-- The counter was started and some periods have elapsed since. -/
structure Running (s : Hpet) (d : Device) (elapsed : Nat) : Prop where
  enabled : s.state.enabled ≠ 0
  counting : d.configuration &&& HPET_ENABLE ≠ 0
  counter : d.main_counter.toNat = elapsed % 2 ^ d.width
  admitted : 1 ≤ s.state.period_femtoseconds.toNat ∧ s.state.period_femtoseconds.toNat ≤ 1000000000

theorem width_le (d : Device) : 32 ≤ d.width ∧ d.width ≤ 64 := by
  unfold Device.width
  split <;> omega

theorem toNat_ofNat_mod_width (d : Device) (n : Nat) :
    (UInt64.ofNat (n % 2 ^ d.width)).toNat = n % 2 ^ d.width := by
  apply UInt64.toNat_ofNat_of_lt'
  calc n % 2 ^ d.width < 2 ^ d.width := Nat.mod_lt _ (Nat.two_pow_pos _)
    _ ≤ 2 ^ 64 := Nat.pow_le_pow_right (by omega) (width_le d).2

theorem or_one_and_one (word : UInt64) : (word ||| 1) &&& 1 = 1 := by
  apply UInt64.toNat_inj.mp
  simp [Nat.and_one_is_mod]

theorem hpet_init_runs {V : Type} {vmm_map_page : V → UInt64 → UInt64 → UInt64 → V × Int}
    {firmware : acpi.Status} {d d' : Device} {vmm vmm' : V} {s : Hpet}
    (h : hpet_init vmm_map_page firmware d vmm = (0, s, d', vmm')) :
    Running s d' 0 ∧ d'.width = d.width ∧
      s.state.period_femtoseconds = d.capabilities >>> 32 := by
  revert h
  fun_cases hpet_init vmm_map_page firmware d vmm with
  | case1 | case2 | case3 => intro h; simp at h
  | case4 _ _ _ _ _ capabilities period hperiod d₁ d₂ d₃ state =>
    intro h
    obtain ⟨rfl, rfl, -⟩ : _ = s ∧ _ = d' ∧ _ := by simpa using h
    have hpos : period ≠ 0 := fun h0 => hperiod (.inl h0)
    have hle : ¬ period > 1000000000 := fun hgt => hperiod (.inr hgt)
    refine ⟨⟨?_, ?_, ?_, ?_, ?_⟩, rfl, rfl⟩
    · show (1 : UInt8) ≠ 0
      decide
    · show (d₂.configuration ||| 1) &&& 1 ≠ 0
      rw [or_one_and_one]
      decide
    · show (UInt64.ofNat (0 % 2 ^ _)).toNat = 0 % 2 ^ _
      simp
    · grind
    · exact UInt64.not_lt.mp hle

theorem Running.elapse {s : Hpet} {d : Device} {now : Nat} (h : Running s d now) (p : Nat) :
    Running s (d.elapse p) (now + p) ∧ (d.elapse p).width = d.width := by
  have hd : d.elapse p =
      { d with main_counter := UInt64.ofNat ((d.main_counter.toNat + p) % 2 ^ d.width) } :=
    if_neg h.counting
  rw [hd]
  refine ⟨⟨h.enabled, h.counting, ?_, h.admitted⟩, rfl⟩
  show (UInt64.ofNat ((d.main_counter.toNat + p) % 2 ^ d.width)).toNat = _ % 2 ^ d.width
  rw [toNat_ofNat_mod_width, h.counter, Nat.mod_add_mod]

/-! ## The time of the counter -/

theorem split_product_div (t p unit : Nat) (hu : 0 < unit) :
    t / unit * p + t % unit * p / unit = t * p / unit := by
  have hs : t * p = t % unit * p + unit * (t / unit * p) := by
    grind [Nat.mod_add_div]
  rw [hs, Nat.add_mul_div_left _ _ hu, Nat.add_comm]

theorem Running.nanoseconds {s : Hpet} {d : Device} {elapsed : Nat} (h : Running s d elapsed)
    (hf : nanosecondsOf s.state.period_femtoseconds.toNat elapsed < 2 ^ 64) :
    (hpet_nanoseconds s d).toNat =
      nanosecondsOf s.state.period_femtoseconds.toNat (elapsed % 2 ^ d.width) := by
  have htc : hpet_ticks s d = d.main_counter := if_pos h.enabled
  have hpr := h.admitted.2
  rw [← h.counter]
  have hc : d.main_counter.toNat ≤ elapsed := by
    rw [h.counter]
    exact Nat.mod_le _ _
  generalize hp : s.state.period_femtoseconds.toNat = period at hpr hf
  generalize ht : d.main_counter.toNat = ticks at hc
  have hs := split_product_div ticks period 1000000 (by omega)
  have hw : ticks * period / 1000000 < 2 ^ 64 :=
    (Nat.div_le_div_right (Nat.mul_le_mul_right _ hc)).trans_lt hf
  have hr : ticks % 1000000 * period < 2 ^ 64 := by
    calc ticks % 1000000 * period ≤ 1000000 * 1000000000 :=
          Nat.mul_le_mul (Nat.mod_lt _ (by omega)).le hpr
      _ < 2 ^ 64 := by omega
  simp only [hpet_nanoseconds, htc, UInt64.toNat_add, UInt64.toNat_mul, UInt64.toNat_div,
    UInt64.toNat_mod, hp, ht, UInt64.reduceToNat, nanosecondsOf]
  omega

theorem wrapped_time_lt {period elapsed width : Nat} (hp : 1 ≤ period) (hwd : 32 ≤ width)
    (hw : 2 ^ width ≤ elapsed) :
    nanosecondsOf period (elapsed % 2 ^ width) < nanosecondsOf period elapsed := by
  have hl : elapsed % 2 ^ width + 1000000 ≤ elapsed := by
    have hm : 2 ^ 32 ≤ 2 ^ width := Nat.pow_le_pow_right (by omega) hwd
    have hd : 1 ≤ elapsed / 2 ^ width := (Nat.one_le_div_iff (Nat.two_pow_pos _)).mpr hw
    have hml : 2 ^ width * 1 ≤ 2 ^ width * (elapsed / 2 ^ width) := Nat.mul_le_mul_left _ hd
    grind [Nat.mod_add_div]
  calc elapsed % 2 ^ width * period / 1000000
      < elapsed % 2 ^ width * period / 1000000 + 1 := Nat.lt_succ_self _
    _ = (elapsed % 2 ^ width * period + 1000000) / 1000000 := by omega
    _ ≤ elapsed * period / 1000000 := by
      apply Nat.div_le_div_right
      calc elapsed % 2 ^ width * period + 1000000
          ≤ elapsed % 2 ^ width * period + 1000000 * period := by omega
        _ = (elapsed % 2 ^ width + 1000000) * period := by ring
        _ ≤ elapsed * period := Nat.mul_le_mul_right _ hl

theorem nanosecondsOf_mono (p : Nat) {a b : Nat} (h : a ≤ b) :
    nanosecondsOf p a ≤ nanosecondsOf p b :=
  Nat.div_le_div_right (Nat.mul_le_mul_right _ h)

/-! ## Successive calls -/

theorem Running.readings {s : Hpet} {d : Device} {now : Nat} (h : Running s d now)
    {el : List Nat} (hg : (now :: el).Pairwise (· ≤ ·))
    (hft : ∀ e ∈ el, nanosecondsOf s.state.period_femtoseconds.toNat e < 2 ^ 64) :
    (readings s d now el).map UInt64.toNat =
      el.map fun e => nanosecondsOf s.state.period_femtoseconds.toNat (e % 2 ^ d.width) := by
  induction el generalizing d now with
  | nil => rfl
  | cons e rest ih =>
    obtain ⟨hnw, hrs⟩ := List.pairwise_cons.mp hg
    obtain ⟨hr, hw⟩ := h.elapse (e - now)
    rw [Nat.add_sub_cancel' (hnw e List.mem_cons_self)] at hr
    have hf := hr.nanoseconds (hft e List.mem_cons_self)
    grind [mvh.hpet.readings, List.map_cons]

/-- After a start that succeeds, the time of every call is exact, and so never goes back, when the
counter has not wrapped at any of them. At a call after a wrap the time is wrong. -/
theorem hpet_time_is_exact_iff {V : Type} (vmm_map_page : V → UInt64 → UInt64 → UInt64 → V × Int)
    (firmware : acpi.Status) (d d' : Device) (vmm vmm' : V) (s : Hpet)
    (hinit : hpet_init vmm_map_page firmware d vmm = (0, s, d', vmm')) (elapsed : List Nat)
    (hgrows : elapsed.Pairwise (· ≤ ·))
    (hfit : ∀ e ∈ elapsed, nanosecondsOf (d.capabilities >>> 32).toNat e < 2 ^ 64) :
    ((readings s d' 0 elapsed).map UInt64.toNat =
          elapsed.map (nanosecondsOf (d.capabilities >>> 32).toNat) ∧
        (readings s d' 0 elapsed).Pairwise (· ≤ ·)) ↔
      ∀ e ∈ elapsed, e < 2 ^ d.width := by
  obtain ⟨hruns, hwidth, hperiod⟩ := hpet_init_runs hinit
  have hadmitted := hruns.admitted
  rw [← hperiod] at hfit ⊢
  have hgrows0 : (0 :: elapsed).Pairwise (· ≤ ·) :=
    List.pairwise_cons.mpr ⟨fun _ _ => Nat.zero_le _, hgrows⟩
  have hread := hruns.readings hgrows0 hfit
  rw [hwidth] at hread
  constructor
  · rintro ⟨hexact, -⟩ e he
    by_contra hwrapped
    rw [hexact, List.map_inj_left] at hread
    exact (wrapped_time_lt hadmitted.1 (width_le d).1 (Nat.not_lt.mp hwrapped)).ne' (hread e he)
  · intro hfits
    have hexact : (readings s d' 0 elapsed).map UInt64.toNat =
        elapsed.map (nanosecondsOf s.state.period_femtoseconds.toNat) := by
      rw [hread, List.map_inj_left]
      intro e he
      rw [Nat.mod_eq_of_lt (hfits e he)]
    refine ⟨hexact, ?_⟩
    have hsorted : ((readings s d' 0 elapsed).map UInt64.toNat).Pairwise (· ≤ ·) := by
      rw [hexact]
      exact hgrows.map _ fun _ _ h => nanosecondsOf_mono _ h
    exact (List.pairwise_map.mp hsorted).imp fun h => UInt64.le_iff_toNat_le.mpr h

/-- A timer at `0xFED00000` with a counter of 32 bits and a period of 100 nanoseconds. -/
def narrowDevice : Device := ⟨0x05F5E10000008001, 0, 0⟩

def narrowFirmware : acpi.Status := { available := 1, hpet_address := 0xFED00000 }

def mapsAll (vmm : Unit) (_ _ _ : UInt64) : Unit × Int := (vmm, 0)

def narrowTimer : Int × Hpet × Device × Unit := hpet_init mapsAll narrowFirmware narrowDevice ()

theorem a_second_is_exact :
    narrowTimer.1 = 0 ∧
      ((readings narrowTimer.2.1 narrowTimer.2.2.1 0 [0, 10000000]).map UInt64.toNat =
            [0, 10000000].map (nanosecondsOf 100000000) ∧
          (readings narrowTimer.2.1 narrowTimer.2.2.1 0 [0, 10000000]).Pairwise (· ≤ ·)) :=
  ⟨by decide, (hpet_time_is_exact_iff mapsAll narrowFirmware narrowDevice narrowTimer.2.2.1 () ()
    narrowTimer.2.1 rfl [0, 10000000] (by decide) (by decide)).mpr (by decide)⟩

/-- The counter of 32 bits wraps after some seven minutes, and the time starts at zero again. -/
theorem the_time_goes_back :
    narrowTimer.1 = 0 ∧
      [2 ^ 32 - 1, 2 ^ 32].map (nanosecondsOf 100000000) = [429496729500, 429496729600] ∧
      (readings narrowTimer.2.1 narrowTimer.2.2.1 0 [2 ^ 32 - 1, 2 ^ 32]).map UInt64.toNat =
        [429496729500, 0] := by
  decide

end mvh.hpet
