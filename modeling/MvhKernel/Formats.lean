-- The integer formatters of the utilities (`util.c`).
import MvhKernel.Strings

open exact_words guarded_memory Memory numerals

namespace mvh.util

/-! ## The functions -/

/-- The digits of a formatter, the highest first. -/
def scratchLoop (digit : UInt64 → Int8) (shift : UInt64 → UInt64) : Nat → UInt64 → Text → Option Text
  | 0, _, _ => none
  | room + 1, value, reverse =>
    let reverse := digit value :: reverse
    let value := shift value
    if value ≠ 0 then scratchLoop digit shift room value reverse else some reverse

def storeDigits (m : Memory Int8) (destination capacity : Nat) (reverse : Text) : Option (Nat × Memory Int8) :=
  if destination ≠ 0 ∧ capacity ≠ 0 then do
    let copy := if reverse.length < capacity - 1 then reverse.length else capacity - 1
    let m ← putAll m destination (reverse.take copy)
    let m ← m.put (destination + copy) 0
    some (reverse.length, m)
  else some (reverse.length, m)

def mvh_format_u64 (m : Memory Int8) (destination capacity : Nat) (value : UInt64) : Option (Nat × Memory Int8) := do
  let reverse ← scratchLoop (fun value => (48 + value % 10).toUInt8.toInt8) (fun value => value / 10) 20 value []
  storeDigits m destination capacity reverse

def lowerDigits : Text := (decimals ++ ['a', 'b', 'c', 'd', 'e', 'f']).map code

def mvh_format_hex_u64 (m : Memory Int8) (destination capacity : Nat) (value : UInt64) :
    Option (Nat × Memory Int8) := do
  let reverse ← scratchLoop (fun value => lowerDigits.getD (value &&& 0xF).toNat 0) (fun value => value >>> 4) 16
    value []
  storeDigits m destination capacity reverse

/-! ## The digits -/

def symbol (d : Nat) : Int8 := lowerDigits.getD d 0

/-- A step of the loop takes the lowest digit off the number. -/
structure Shifts (base : Nat) (digit : UInt64 → Int8) (shift : UInt64 → UInt64) : Prop where
  digit : ∀ value : UInt64, digit value = symbol (value.toNat % base)
  rest : ∀ value : UInt64, (shift value).toNat = value.toNat / base

theorem decimal_shifts : Shifts 10 (fun value => (48 + value % 10).toUInt8.toInt8) (fun value => value / 10) where
  digit value := by
    have hdg : ∀ d < 10, (48 + UInt64.ofNat d).toUInt8.toInt8 = symbol d := by decide
    have hd := hdg (value % 10).toNat (Nat.mod_lt _ (by decide))
    rwa [UInt64.ofNat_toNat] at hd
  rest value := UInt64.toNat_div value 10

theorem hex_shifts : Shifts 16 (fun value => lowerDigits.getD (value &&& 0xF).toNat 0) (fun value => value >>> 4) where
  digit value := by
    have hl : (value &&& 0xF).toNat = value.toNat % 16 := Nat.and_two_pow_sub_one_eq_mod value.toNat 4
    show lowerDigits.getD (value &&& 0xF).toNat 0 = _
    rw [hl]
    rfl
  rest value := by
    rw [UInt64.toNat_shiftRight, Nat.shiftRight_eq_div_pow]
    rfl

theorem scratchLoop_eq {base : Nat} {d : UInt64 → Int8} {shift : UInt64 → UInt64} (hs : Shifts base d shift)
    (hb : 1 < base) (rm : Nat) (v : UInt64) (r : Text) (h : v.toNat < base ^ (rm + 1)) :
    scratchLoop d shift (rm + 1) v r = some (canonical base symbol v.toNat ++ r) := by
  induction rm generalizing v r with
  | zero =>
    rw [Nat.zero_add, Nat.pow_one] at h
    have hz : shift v = 0 := by
      refine UInt64.toNat_inj.mp ?_
      rw [hs.rest, Nat.div_eq_of_lt h]
      rfl
    simp only [scratchLoop]
    rw [if_neg (not_not.mpr hz), hs.digit, Nat.mod_eq_of_lt h, canonical_small h]
    rfl
  | succ rm ih =>
    have hr := hs.rest v
    rw [scratchLoop]
    by_cases hz : shift v = 0
    · rw [hz] at hr
      have hlt : v.toNat < base :=
        (Nat.div_eq_zero_iff.mp hr.symm).resolve_left (Nat.ne_of_gt (Nat.zero_lt_of_lt hb))
      rw [if_neg (not_not.mpr hz), hs.digit, Nat.mod_eq_of_lt hlt, canonical_small hlt]
      rfl
    · have hne : v.toNat / base ≠ 0 := by grind
      have hl : (shift v).toNat < base ^ (rm + 1) := by
        rw [hr, Nat.div_lt_iff_lt_mul (Nat.zero_lt_of_lt hb), ← Nat.pow_succ]
        exact h
      rw [if_pos hz, ih _ _ hl, hr, hs.digit, canonical_snoc hb hne, List.append_assoc]
      rfl

/-! ## The formatters -/

/-- A destination of which just the first `capacity` characters may be written. -/
structure FormatCall (m : Memory Int8) (d capacity : Nat) : Prop where
  given : d ≠ 0
  writes : ∀ x, m.writable x = true ↔ d ≤ x ∧ x < d + capacity

/-- The length of the text is returned. -/
structure Formats (m : Memory Int8) (d capacity : Nat) (text : Text) (outcome : Option (Nat × Memory Int8))
    (m' : Memory Int8) : Prop where
  returns : outcome = some (text.length, m')
  cut : 0 < capacity → Stored m' d (text.take (min text.length (capacity - 1)))
  whole : text.length < capacity → Stored m' d text
  frame : ∀ x, x < d ∨ d + capacity ≤ x → m'.cells x = m.cells x

theorem storeDigits_formats {m : Memory Int8} {d c : Nat} (cl : FormatCall m d c) (t : Text) :
    ∃ m', Formats m d c t (storeDigits m d c t) m' := by
  unfold storeDigits
  by_cases hc : c = 0
  · rw [if_neg fun h => h.2 hc]
    exact ⟨m, rfl, fun h => absurd hc (Nat.ne_of_gt h), fun h => absurd h (by omega), fun _ _ => rfl⟩
  · have hcp : (if t.length < c - 1 then t.length else c - 1) =
        min t.length (c - 1) := by
      split <;> omega
    rw [if_pos ⟨cl.given, hc⟩]
    simp only [hcp]
    have hl : (t.take (min t.length (c - 1))).length = min t.length (c - 1) := by
      rw [List.length_take]
      omega
    have ho (i : Nat) (hi : i < c) : m.writable (d + i) = true :=
      (cl.writes _).mpr ⟨by omega, by omega⟩
    refine ⟨m.written d (t.take (min t.length (c - 1)) ++ [0]), ?_, fun _ => stored_written _ _ _,
      fun hr => ?_, fun x hx => written_outside ?_⟩
    · have hls : (m.written d (t.take (min t.length (c - 1)))).writable
          (d + min t.length (c - 1)) = true := ho _ (by omega)
      rw [putAll_eq fun i hi => ho i (by omega)]
      grind [put_eq, written_append]
    · grind [List.take_of_length_le, stored_written]
    grind

theorem format_u64_formats {m : Memory Int8} {d c : Nat} (cl : FormatCall m d c) (v : UInt64) :
    ∃ m', Formats m d c (canonical 10 symbol v.toNat) (mvh_format_u64 m d c v) m' := by
  have hr : v.toNat < 10 ^ (19 + 1) := v.toNat_lt.trans (by decide)
  unfold mvh_format_u64
  rw [scratchLoop_eq decimal_shifts (by decide) 19 v [] hr, List.append_nil]
  exact storeDigits_formats cl _

theorem format_hex_u64_formats {m : Memory Int8} {d c : Nat} (cl : FormatCall m d c) (v : UInt64) :
    ∃ m', Formats m d c (canonical 16 symbol v.toNat) (mvh_format_hex_u64 m d c v) m' := by
  unfold mvh_format_hex_u64
  rw [scratchLoop_eq hex_shifts (by decide) 15 v [] v.toNat_lt, List.append_nil]
  exact storeDigits_formats cl _

/-! ## The parsers -/

theorem Parses.eq_pure {p : Option Text → Option UInt64 → Noted (Int × Option UInt64)}
    {Grammar : Text → Int → Prop} (h : Parses p Grammar 0 (2 ^ 64 - 1)) {t : Text} {value : UInt64}
    (ht : Grammar t value.toNat) (old : UInt64) :
    p (some t) (some old) = pure (0, some value) := by
  have hlt := value.toNat_lt
  have hl : (0 : Int) ≤ value.toNat := by omega
  have hh : (value.toNat : Int) ≤ 2 ^ 64 - 1 := by omega
  have ha := (h.accepts t old).mpr ⟨_, hl, hh, ht⟩
  obtain ⟨s, hs, hn⟩ := h.stores t old _ hl hh ht
  obtain rfl : s = value := UInt64.toNat_inj.mp (Int.ofNat.inj hn)
  have he := h.exact (some t) (some old)
  generalize p (some t) (some old) = outcome at ha hs he
  obtain ⟨⟨code, r⟩, noted⟩ := outcome
  cases ha
  cases hs
  cases he
  rfl

theorem decimal_canonical (v : UInt64) : Decimal (canonical 10 symbol v.toNat) v.toNat :=
  ⟨_, rfl, canonical_numeral (by decide) (by decide) _⟩

theorem hexadecimal_canonical (v : UInt64) : Hexadecimal (canonical 16 symbol v.toNat) v.toNat :=
  ⟨[], List.mem_cons_self, _, rfl, _, rfl, canonical_numeral (by decide) (by decide) _⟩

theorem decimalDigit_symbol : ∀ c d, decimalDigit c = some d → d < 10 ∧ c = symbol d := by
  have hb : ∀ c, ∀ d ∈ decimalDigit c, d < 10 ∧ c = symbol d := forall_char (by decide +kernel)
  exact fun c d hd => hb c d hd

/-- A text with more than one character does not begin with a zero. -/
def Plain (text : Text) : Prop := text.length = 1 ∨ text.head? ≠ some 48

/-- The formatters store the canonical numeral, the parsers read it back, and a decimal text is
formatted again as it was. -/
theorem formatting_and_parsing_are_inverse (m : Memory Int8) (d capacity : Nat) (call : FormatCall m d capacity)
    (value : UInt64) :
    (∃ m', Formats m d capacity (canonical 10 symbol value.toNat) (mvh_format_u64 m d capacity value) m') ∧
      (∃ m', Formats m d capacity (canonical 16 symbol value.toNat) (mvh_format_hex_u64 m d capacity value) m') ∧
      (∀ old, mvh_parse_u64 (some (canonical 10 symbol value.toNat)) (some old) = pure (0, some value)) ∧
      (∀ old, mvh_parse_hex_u64 (some (canonical 16 symbol value.toNat)) (some old) = pure (0, some value)) ∧
      ∀ text old, mvh_parse_u64 (some text) (some old) = pure (0, some value) → Plain text →
        canonical 10 symbol value.toNat = text := by
  refine ⟨format_u64_formats call value, format_hex_u64_formats call value,
    mvh_parse_u64_parses.eq_pure (decimal_canonical value),
    mvh_parse_hex_u64_parses.eq_pure (hexadecimal_canonical value), fun text old hparse hplain => ?_⟩
  have haccepts := mvh_parse_u64_parses.accepts text old
  rw [hparse] at haccepts
  obtain ⟨number, hlow, hhigh, n, rfl, hnumeral⟩ := haccepts.mp rfl
  obtain ⟨stored, hstored, hnumber⟩ := mvh_parse_u64_parses.stores text old n hlow hhigh ⟨n, rfl, hnumeral⟩
  rw [hparse] at hstored
  cases hstored
  obtain rfl : value.toNat = n := Int.ofNat.inj hnumber
  refine canonical_eq (by decide) decimalDigit_symbol hnumeral (hplain.imp_right fun hhead c hc hzero => hhead ?_)
  rw [Option.mem_def.mp hc, (decimalDigit_symbol c 0 hzero).2]
  rfl

def threePlaces : Memory Int8 where
  cells _ := 0
  readable _ := false
  writable x := decide (8 ≤ x ∧ x < 8 + 3)

/-- The number 4095 is cut, and its three hexadecimal digits are cut too. -/
theorem a_number_is_cut :
    (∃ m', Formats threePlaces 8 3 (canonical 10 symbol 4095) (mvh_format_u64 threePlaces 8 3 4095) m') ∧
      ∃ m', Formats threePlaces 8 3 (canonical 16 symbol 4095) (mvh_format_hex_u64 threePlaces 8 3 4095) m' := by
  obtain ⟨hdecimal, hhex, -⟩ := formatting_and_parsing_are_inverse threePlaces 8 3
    ⟨by decide, fun _ => decide_eq_true_iff⟩ 4095
  exact ⟨hdecimal, hhex⟩

end mvh.util
