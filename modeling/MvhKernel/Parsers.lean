-- The integer parsers of the utilities (`util.c`).
import MvhKernel.Exact
import MvhKernel.Numerals

open exact_words numerals

namespace mvh.util

abbrev Text : Type := List Int8

abbrev MVH_U64_MAX : UInt64 := 0xFFFFFFFFFFFFFFFF
abbrev INT64_MAX : Int64 := 0x7FFFFFFFFFFFFFFF
abbrev INT64_MIN : Int64 := -0x8000000000000000

/-! ## Characters -/

def mvh_ascii_is_upper (character : Int8) : Bool := character ≥ 65 && character ≤ 90

def mvh_ascii_is_digit (character : Int8) : Bool := character ≥ 48 && character ≤ 57

def mvh_ascii_to_lower (character : Int8) : Noted Int8 :=
  if mvh_ascii_is_upper character then do
    let lower ← add character.toInt32 32
    note lower.toInt8 lower.toInt
  else pure character

def mvh_ascii_digit_value (character : Int8) : Noted Int32 :=
  if mvh_ascii_is_digit character then sub character.toInt32 48 else pure (-1)

def mvh_ascii_hex_value (character : Int8) : Noted Int32 := do
  let character ← mvh_ascii_to_lower character
  if mvh_ascii_is_digit character then sub character.toInt32 48
  else if character ≥ 97 && character ≤ 102 then do
    let letter ← sub character.toInt32 97
    add letter 10
  else pure (-1)

/-! ## The parsers -/

section
variable (digitValue : Int8 → Noted Int32) (base limit : UInt64)

/-- The loop of the parsers. -/
def digitLoop : Text → UInt64 → Noted (Option UInt64)
  | [], value => pure (some value)
  | character :: text, value => do
    let digit ← digitValue character
    if digit < 0 then pure none
    else do
      let digit ← note (UInt64.ofInt digit.toInt) digit.toInt
      let room ← sub limit digit
      if value > room / base then pure none
      else do
        let value ← mul value base
        let value ← add value digit
        digitLoop text value

end

/-- What a parser returns, and what it leaves in the result: the number, or what was there. -/
def store {ω : Type} (result : Option ω) : Option ω → Int × Option ω
  | some value => (0, some value)
  | none => (-1, result)

def mvh_parse_u64 (text : Option Text) (result : Option UInt64) : Noted (Int × Option UInt64) :=
  match text, result with
  | some text, some _ =>
    if text = [] then pure (store result none)
    else do
      let value ← digitLoop mvh_ascii_digit_value 10 MVH_U64_MAX text 0
      pure (store result value)
  | _, _ => pure (store result none)

def skipHexMark : Text → Text
  | first :: second :: text =>
    if first = 48 ∧ (second = 120 ∨ second = 88) then text else first :: second :: text
  | text => text

def mvh_parse_hex_u64 (text : Option Text) (result : Option UInt64) :
    Noted (Int × Option UInt64) :=
  match text, result with
  | some text, some _ =>
    let text := skipHexMark text
    if text = [] then pure (store result none)
    else do
      let value ← digitLoop mvh_ascii_hex_value 16 MVH_U64_MAX text 0
      pure (store result value)
  | _, _ => pure (store result none)

def skipSign (first : Int8) (rest : Text) : Text :=
  if first = 45 ∨ first = 43 then rest else first :: rest

def signed (negative : Bool) (magnitude : UInt64) : Noted Int64 :=
  if negative ∧ magnitude = (1 : UInt64) <<< 63 then pure INT64_MIN
  else do
    let value ← note magnitude.toInt64 magnitude.toNat
    if negative then neg value else pure value

def readSigned (negative : Bool) (text : Text) : Noted (Option Int64) := do
  let limit := if negative then (1 : UInt64) <<< 63 else INT64_MAX.toUInt64
  let magnitude ← digitLoop mvh_ascii_digit_value 10 limit text 0
  match magnitude with
  | none => pure none
  | some magnitude => do
    let value ← signed negative magnitude
    pure (some value)

def mvh_parse_i64 (text : Option Text) (result : Option Int64) : Noted (Int × Option Int64) :=
  match text, result with
  | some (first :: rest), some _ =>
    let negative : Bool := first = 45
    let text := skipSign first rest
    if text = [] then pure (store result none)
    else do
      let value ← readSigned negative text
      pure (store result value)
  | _, _ => pure (store result none)

/-! ## The grammars -/

def code (character : Char) : Int8 := Int8.ofInt character.toNat

def decimals : List Char := ['0', '1', '2', '3', '4', '5', '6', '7', '8', '9']

def decimalDigit (character : Int8) : Option Nat := (decimals.map code).idxOf? character

def hexDigit (character : Int8) : Option Nat :=
  ((decimals ++ ['a', 'b', 'c', 'd', 'e', 'f']).map code).idxOf? character <|>
    ((decimals ++ ['A', 'B', 'C', 'D', 'E', 'F']).map code).idxOf? character

def Decimal (text : Text) (number : Int) : Prop :=
  ∃ n : Nat, number = n ∧ Numeral 10 decimalDigit text n

def Hexadecimal (text : Text) (number : Int) : Prop :=
  ∃ mark ∈ [[], ['0', 'x'], ['0', 'X']], ∃ rest, text = mark.map code ++ rest ∧
    ∃ n : Nat, number = n ∧ Numeral 16 hexDigit rest n

def SignedDecimal (text : Text) (number : Int) : Prop :=
  ∃ sign ∈ [[], ['+'], ['-']], ∃ rest, text = sign.map code ++ rest ∧
    ∃ n : Nat, number = (if sign = ['-'] then -(n : Int) else n) ∧ Numeral 10 decimalDigit rest n

/-- The parser accepts the texts of a grammar with a number in the range, and no other text. -/
structure Parses {ω : Type} [Word ω] (parser : Option Text → Option ω → Noted (Int × Option ω))
    (Grammar : Text → Int → Prop) (low high : Int) : Prop where
  accepts : ∀ text old, (parser (some text) (some old)).value.1 = 0 ↔
    ∃ number, low ≤ number ∧ number ≤ high ∧ Grammar text number
  stores : ∀ text old number, low ≤ number → number ≤ high → Grammar text number →
    ∃ value, (parser (some text) (some old)).value.2 = some value ∧ Word.number value = number
  keeps : ∀ text result, (parser text result).value.1 ≠ 0 →
    (parser text result).value.1 = -1 ∧ (parser text result).value.2 = result
  refuses_null : ∀ text result, text = none ∨ result = none → (parser text result).value.1 = -1
  exact : ∀ text result, (parser text result).exact = true

/-! ## Digits -/

def wordOf : Option Nat → Int32
  | some d => Int32.ofInt d
  | none => -1

/-- The value of a character is that of its digit, and the digits are those of the base. -/
structure Values (digitValue : Int8 → Noted Int32) (digit : Int8 → Option Nat) (base : Nat) :
    Prop where
  value : ∀ c, digitValue c = pure (wordOf (digit c))
  small : ∀ c, (digit c).all (· < base)

theorem forall_char {P : Int8 → Prop} (h : ∀ byte : Fin 256, P ⟨⟨⟨byte⟩⟩⟩) (c : Int8) : P c :=
  h c.toUInt8.toBitVec.toFin

theorem decimal_values : Values mvh_ascii_digit_value decimalDigit 10 where
  value := forall_char (by decide +kernel)
  small := forall_char (by decide +kernel)

theorem hex_values : Values mvh_ascii_hex_value hexDigit 16 where
  value := forall_char (by decide +kernel)
  small := forall_char (by decide +kernel)

/-! ## The loop -/

section Loop
variable {digitValue : Int8 → Noted Int32} {digit : Int8 → Option Nat} {base limit : UInt64}

theorem digitLoop_cons_none (hvl : Values digitValue digit base.toNat) {c : Int8}
    (hc : digit c = none) (t : Text) (v : UInt64) :
    digitLoop digitValue base limit (c :: t) v = pure none := by
  have hv := hvl.value c
  rw [hc] at hv
  unfold digitLoop
  rw [bind_of_eq_pure hv]
  rfl

theorem toNat_ofInt64 {n : Nat} (h : n < 2 ^ 64) : (UInt64.ofInt n).toNat = n := by
  have hm : ((n : Int) % 2 ^ 64).toNat = n := by omega
  rw [UInt64.ofInt, hm]
  exact UInt64.toNat_ofNat_of_lt' h

theorem gt_div_iff {v limit d base : Nat} (hb : 0 < base) (hd : d ≤ limit) :
    (limit - d) / base < v ↔ limit < push base v d := by
  rw [Nat.div_lt_iff_lt_mul hb, Nat.mul_comm v base]
  unfold push
  omega

theorem digitLoop_cons_some (hv : Values digitValue digit base.toNat) (hb : 0 < base.toNat)
    (hb' : base.toNat ≤ 16) (hlm : 16 ≤ limit.toNat) {c : Int8} {d : Nat}
    (hc : digit c = some d) (t : Text) (value : UInt64) :
    (limit.toNat < push base.toNat value.toNat d ∧
        digitLoop digitValue base limit (c :: t) value = pure none) ∨
      ∃ value' : UInt64, value'.toNat = push base.toNat value.toNat d ∧
        push base.toNat value.toNat d ≤ limit.toNat ∧
        digitLoop digitValue base limit (c :: t) value =
          digitLoop digitValue base limit t value' := by
  have hvl := hv.value c
  have hs := hv.small c
  rw [hc] at hvl hs
  have hd : d < base.toNat := of_decide_eq_true hs
  have hdg : (Int32.ofInt d).toInt = d := toInt_ofInt32 ⟨by omega, by omega⟩
  have hn : ¬ Int32.ofInt d < 0 := by simp [Int32.lt_iff_toInt_lt, hdg]
  have hw : (UInt64.ofInt d).toNat = d := toNat_ofInt64 (by omega)
  have hcs : note (UInt64.ofInt (Int32.ofInt d).toInt) (Int32.ofInt d).toInt =
      pure (UInt64.ofInt d) := by
    rw [hdg]
    exact note_exact (congrArg Nat.cast hw)
  have hr : (limit - UInt64.ofInt d).toNat = limit.toNat - d := by
    rw [UInt64.toNat_sub_of_le _ _ (UInt64.le_iff_toNat_le.mpr (by omega)), hw]
  have ht : value > (limit - UInt64.ofInt d) / base ↔
      limit.toNat < push base.toNat value.toNat d := by
    grind [UInt64.lt_iff_toNat_lt, UInt64.toNat_div, gt_div_iff]
  have hl : digitLoop digitValue base limit (c :: t) value =
      if value > (limit - UInt64.ofInt d) / base then pure none
      else mul value base >>= fun value => add value (UInt64.ofInt d) >>= fun value =>
        digitLoop digitValue base limit t value := by
    rw [digitLoop, bind_of_eq_pure hvl]
    show (if Int32.ofInt d < 0 then _ else _) = _
    rw [if_neg hn]
    show (note (UInt64.ofInt (Int32.ofInt d).toInt) (Int32.ofInt d).toInt >>= _) = _
    rw [bind_of_eq_pure hcs, bind_of_eq_pure (sub64 (by omega))]
  by_cases hp : limit.toNat < push base.toNat value.toNat d
  · grind
  · right
    have hf := limit.toNat_lt
    have hps : push base.toNat value.toNat d = value.toNat * base.toNat + d := by
      unfold push
      ring
    have hpr : (value * base).toNat = value.toNat * base.toNat := by
      grind [UInt64.toNat_mul, Nat.mod_eq_of_lt]
    refine ⟨value * base + UInt64.ofInt d, ?_, Nat.not_lt.mp hp, ?_⟩
    · grind [UInt64.toNat_add, Nat.mod_eq_of_lt]
    · rw [hl, if_neg (fun h => hp (ht.mp h)), bind_of_eq_pure (mul64 (by omega)),
        bind_of_eq_pure (add64 (by omega))]

theorem digitLoop_spec (hv : Values digitValue digit base.toNat) (hb : 0 < base.toNat)
    (hb' : base.toNat ≤ 16) (hlm : 16 ≤ limit.toNat) (t : Text) {v : UInt64}
    (hvl : v.toNat ≤ limit.toNat) :
    (digitLoop digitValue base limit t v).exact = true ∧
      ∀ r, (digitLoop digitValue base limit t v).value = some r ↔
        ∃ dg, List.Forall₂ (fun c d => digit c = some d) t dg ∧
          r.toNat = dg.foldl (push base.toNat) v.toNat ∧ r.toNat ≤ limit.toNat := by
  induction t generalizing v with
  | nil =>
    refine ⟨rfl, fun r => ⟨?_, ?_⟩⟩
    · intro hr
      cases hr
      exact ⟨[], .nil, rfl, hvl⟩
    · rintro ⟨dg, hd, hr, -⟩
      cases hd
      exact congrArg some (UInt64.toNat_inj.mp hr).symm
  | cons c t ih =>
    rcases hc : digit c with _ | d
    · rw [digitLoop_cons_none hv hc]
      refine ⟨rfl, fun r => ⟨nofun, ?_⟩⟩
      rintro ⟨dg, hd, -⟩
      cases hd with
      | cons hf _ => rw [hc] at hf; cases hf
    · rcases digitLoop_cons_some hv hb hb' hlm hc t v with
        ⟨hp, hl⟩ | ⟨value', hv', hw, hl⟩
      · rw [hl]
        refine ⟨rfl, fun r => ⟨nofun, ?_⟩⟩
        rintro ⟨dg, hd, hr, hle⟩
        cases hd with
        | @cons _ d' _ dg hf _ => grind [List.foldl_cons, le_foldl_push]
      · rw [hl]
        obtain ⟨he, hn⟩ := ih (hv'.trans_le hw)
        refine ⟨he, fun r => (hn r).trans ⟨?_, ?_⟩⟩
        · rintro ⟨dg, hd, hr, hle⟩
          rw [hv'] at hr
          exact ⟨d :: dg, .cons hc hd, hr, hle⟩
        · rintro ⟨dg, hd, hr, hle⟩
          cases hd with
          | @cons _ d' _ dg hf hrs => grind

theorem digitLoop_reads (base limit : UInt64) (hv : Values digitValue digit base.toNat)
    (hb : 0 < base.toNat) (hb' : base.toNat ≤ 16) (hl : 16 ≤ limit.toNat) {t : Text} (ht : t ≠ []) :
    ∃ read : Option UInt64, digitLoop digitValue base limit t 0 = pure read ∧
      ∀ r, read = some r ↔ Numeral base.toNat digit t r.toNat ∧ r.toNat ≤ limit.toNat := by
  have hvl : (0 : UInt64).toNat ≤ limit.toNat := Nat.zero_le _
  obtain ⟨he, hn⟩ := digitLoop_spec hv hb hb' hl t hvl
  generalize digitLoop digitValue base limit t 0 = loop at he hn
  refine ⟨loop.value, ?_, fun r => (hn r).trans ?_⟩
  · cases loop
    cases he
    rfl
  grind [numeral_iff]

end Loop

/-! ## The texts of the grammars -/

theorem skipHexMark_cases (text : Text) :
    (∃ m ∈ [['0', 'x'], ['0', 'X']], text = m.map code ++ skipHexMark text) ∨
      skipHexMark text = text := by
  fun_cases skipHexMark text with
  | case1 first s rest hm =>
    left
    obtain ⟨rfl, rfl | rfl⟩ := hm
    · exact ⟨['0', 'x'], List.mem_cons_self, rfl⟩
    · exact ⟨['0', 'X'], List.mem_cons_of_mem _ List.mem_cons_self, rfl⟩
  | case2 => exact .inr rfl
  | case3 => exact .inr rfl

theorem mark_has_no_digit :
    ∀ m ∈ [['0', 'x'], ['0', 'X']], ∃ c ∈ m, hexDigit (code c) = none := by
  intro m hm
  simp only [List.mem_cons, List.not_mem_nil, or_false] at hm
  rcases hm with rfl | rfl
  · exact ⟨'x', by simp, rfl⟩
  · exact ⟨'X', by simp, rfl⟩

theorem hexadecimal_iff (text : Text) (nm : Int) :
    Hexadecimal text nm ↔ ∃ n : Nat, nm = n ∧ Numeral 16 hexDigit (skipHexMark text) n := by
  constructor
  · rintro ⟨m, hm, rest, ht, n, hnm, hn⟩
    refine ⟨n, hnm, ?_⟩
    simp only [List.mem_cons, List.not_mem_nil, or_false] at hm
    rcases hm with rfl | rfl | rfl
    · rw [List.map_nil, List.nil_append] at ht
      subst ht
      rcases skipHexMark_cases text with ⟨m, hm, hmr⟩ | hs
      · obtain ⟨c, hc, hnn⟩ := mark_has_no_digit m hm
        have hmm : code c ∈ text := by grind
        obtain ⟨d, hd⟩ := hn.digit_of_mem hmm
        rw [hnn] at hd
        cases hd
      · rw [hs]
        exact hn
    · rw [ht]
      exact hn
    · rw [ht]
      exact hn
  · rintro ⟨n, hnm, hn⟩
    rcases skipHexMark_cases text with ⟨m, hm, hmr⟩ | hs
    · exact ⟨m, List.mem_cons_of_mem _ hm, skipHexMark text, hmr, n, hnm, hn⟩
    · rw [hs] at hn
      exact ⟨[], List.mem_cons_self, text, rfl, n, hnm, hn⟩

theorem skipSign_cases (first : Int8) (rest : Text) :
    (first = 45 ∧ skipSign first rest = rest) ∨ (first = 43 ∧ skipSign first rest = rest) ∨
      (first ≠ 45 ∧ skipSign first rest = first :: rest) := by
  unfold skipSign
  grind

theorem not_signedDecimal_nil (number : Int) : ¬ SignedDecimal [] number := by
  rintro ⟨sign, -, rest, ht, n, -, hn⟩
  rw [(List.append_eq_nil_iff.mp ht.symm).2] at hn
  exact not_numeral_nil n hn

theorem signedDecimal_cons_iff (first : Int8) (rest : Text) (nm : Int) :
    SignedDecimal (first :: rest) nm ↔
      ∃ n : Nat, nm = (if first = 45 then -(n : Int) else n) ∧
        Numeral 10 decimalDigit (skipSign first rest) n := by
  constructor
  · rintro ⟨sign, hsg, r', ht, n, hnm, hn⟩
    refine ⟨n, ?_⟩
    simp only [List.mem_cons, List.not_mem_nil, or_false] at hsg
    rcases hsg with rfl | rfl | rfl
    · rw [List.map_nil, List.nil_append] at ht
      subst ht
      obtain ⟨d, hd⟩ := hn.digit_of_mem List.mem_cons_self
      have hm : first ≠ 45 := by
        rintro rfl
        cases hd
      have hp : first ≠ 43 := by
        rintro rfl
        cases hd
      grind [skipSign]
    · cases ht
      exact ⟨hnm, hn⟩
    · cases ht
      exact ⟨hnm, hn⟩
  · rintro ⟨n, hnm, hn⟩
    rcases skipSign_cases first rest with ⟨rfl, hs⟩ | ⟨rfl, hs⟩ | ⟨hm, hsm⟩
    · rw [hs] at hn
      exact ⟨['-'], by decide, rest, rfl, n, hnm, hn⟩
    · rw [hs] at hn
      exact ⟨['+'], by decide, rest, rfl, n, hnm, hn⟩
    · rw [hsm] at hn
      rw [if_neg hm] at hnm
      exact ⟨[], by decide, first :: rest, rfl, n, hnm, hn⟩

/-! ## Every parser -/

theorem Parses.of_read {ω : Type} [Word ω] {p : Option Text → Option ω → Noted (Int × Option ω)}
    {Grammar : Text → Int → Prop} {low high : Int}
    (hnl : ∀ t rs, t = none ∨ rs = none →
      p t rs = pure (store rs none))
    (hrd : ∀ t old, ∃ read : Option ω, p (some t) (some old) = pure (store (some old) read) ∧
      ∀ n, (∃ r, read = some r ∧ Word.number r = n) ↔
        low ≤ n ∧ n ≤ high ∧ Grammar t n) :
    Parses p Grammar low high := by
  have hc : ∀ t rs, ∃ read, p t rs = pure (store rs read) := by
    intro t rs
    rcases t with _ | t
    · exact ⟨none, hnl none rs (.inl rfl)⟩
    · rcases rs with _ | old
      · exact ⟨none, hnl (some t) none (.inr rfl)⟩
      · obtain ⟨read, hp, -⟩ := hrd t old
        exact ⟨read, hp⟩
  constructor
  case accepts =>
    intro t old
    obtain ⟨read, hp, hn⟩ := hrd t old
    rw [hp]
    constructor
    · intro hz
      rcases read with _ | r
      · cases hz
      · exact ⟨_, (hn _).mp ⟨r, rfl, rfl⟩⟩
    · rintro ⟨n, hin⟩
      obtain ⟨r, rfl, -⟩ := (hn n).mpr hin
      rfl
  case stores =>
    intro t old n hl hh hg
    obtain ⟨read, hp, hn⟩ := hrd t old
    obtain ⟨r, rfl, hr⟩ := (hn n).mpr ⟨hl, hh, hg⟩
    rw [hp]
    exact ⟨r, rfl, hr⟩
  case keeps =>
    intro t rs hf
    obtain ⟨read, hp⟩ := hc t rs
    rw [hp] at hf ⊢
    rcases read with _ | r
    · exact ⟨rfl, rfl⟩
    · exact absurd rfl hf
  case refuses_null =>
    intro t rs h
    rw [hnl t rs h]
    rfl
  case exact =>
    intro t rs
    obtain ⟨read, hp⟩ := hc t rs
    rw [hp]
    rfl

theorem digitLoop_reads_u64 {digitValue : Int8 → Noted Int32} {digit : Int8 → Option Nat}
    (base : UInt64) (hv : Values digitValue digit base.toNat) (hb : 0 < base.toNat)
    (hb' : base.toNat ≤ 16) {t : Text} (ht : t ≠ []) :
    ∃ read : Option UInt64, digitLoop digitValue base MVH_U64_MAX t 0 = pure read ∧
      ∀ number : Int, (∃ r, read = some r ∧ Word.number r = number) ↔
        0 ≤ number ∧ number ≤ 2 ^ 64 - 1 ∧ ∃ n : Nat, number = n ∧ Numeral base.toNat digit t n := by
  obtain ⟨read, hl, hrd⟩ :=
    digitLoop_reads base MVH_U64_MAX hv hb hb' (by decide) ht
  refine ⟨read, hl, fun number => ⟨?_, ?_⟩⟩
  · rintro ⟨r, hr, hnm⟩
    have hlt := r.toNat_lt
    have hw : (r.toNat : Int) = number := hnm
    grind
  · rintro ⟨-, hh, n, rfl, hn⟩
    have hlt : n < 2 ^ 64 := by omega
    have hr : (UInt64.ofNat n).toNat = n := UInt64.toNat_ofNat_of_lt' hlt
    refine ⟨UInt64.ofNat n, (hrd _).mpr ?_, congrArg Nat.cast hr⟩
    grind

theorem nothing_read {ω : Type} [Word ω] {low hg : Int} {base : Nat} {digit : Int8 → Option Nat}
    {nb : Nat → Int} {t : Text} (ht : t = []) (nm : Int) :
    (∃ r : ω, none = some r ∧ Word.number r = nm) ↔
      low ≤ nm ∧ nm ≤ hg ∧ ∃ n, nm = nb n ∧ Numeral base digit t n := by
  refine ⟨nofun, ?_⟩
  rintro ⟨-, -, n, -, hn⟩
  rw [ht] at hn
  exact absurd hn (not_numeral_nil n)

theorem mvh_parse_u64_parses : Parses mvh_parse_u64 Decimal 0 (2 ^ 64 - 1) := by
  apply Parses.of_read
  · rintro t r (rfl | rfl)
    · rfl
    · cases t <;> rfl
  · intro t old
    by_cases ht : t = []
    · exact ⟨none, if_pos ht, nothing_read ht⟩
    · obtain ⟨read, hl, hr⟩ :=
        digitLoop_reads_u64 10 decimal_values (by decide) (by decide) ht
      refine ⟨read, ?_, hr⟩
      grind [bind_of_eq_pure, mvh_parse_u64]

theorem mvh_parse_hex_u64_parses : Parses mvh_parse_hex_u64 Hexadecimal 0 (2 ^ 64 - 1) := by
  apply Parses.of_read
  · rintro t r (rfl | rfl)
    · rfl
    · cases t <;> rfl
  · intro t old
    simp only [hexadecimal_iff]
    by_cases ht : skipHexMark t = []
    · exact ⟨none, if_pos ht, nothing_read ht⟩
    · obtain ⟨read, hl, hr⟩ :=
        digitLoop_reads_u64 16 hex_values (by decide) (by decide) ht
      refine ⟨read, ?_, hr⟩
      grind [bind_of_eq_pure, mvh_parse_hex_u64]

theorem toInt_toInt64 {m : UInt64} (h : m.toNat < 2 ^ 63) :
    m.toInt64.toInt = m.toNat := by
  have hw : m = UInt64.ofNat m.toNat := UInt64.ofNat_toNat.symm
  grind [UInt64.toInt64_ofNat', Int64.toInt_ofNat_of_lt]

def limitOf (negative : Bool) : Nat := if negative then 2 ^ 63 else 2 ^ 63 - 1

theorem signed_eq {n : Bool} {m : UInt64} (h : m.toNat ≤ limitOf n) :
    ∃ v : Int64, signed n m = pure v ∧
      v.toInt = if n then -(m.toNat : Int) else m.toNat := by
  unfold signed
  by_cases hl : n ∧ m = (1 : UInt64) <<< 63
  · obtain ⟨rfl, rfl⟩ := hl
    exact ⟨INT64_MIN, rfl, rfl⟩
  · rw [if_neg hl]
    have hlt : m.toNat < 2 ^ 63 := by
      cases n with
      | false => exact Nat.lt_of_le_of_lt h (by decide)
      | true =>
        refine Nat.lt_of_le_of_ne h fun heq => hl ⟨rfl, ?_⟩
        exact UInt64.toNat_inj.mp heq
    have hv := toInt_toInt64 hlt
    rw [bind_of_eq_pure (note_exact hv)]
    cases n with
    | false => exact ⟨_, rfl, hv⟩
    | true =>
      have hn : (-m.toInt64).toInt = -(m.toInt64.toInt) := by
        grind [Int64.toInt_neg, Int.bmod_eq_of_le]
      refine ⟨-m.toInt64, note_exact hn, ?_⟩
      rw [hn, hv]
      rfl

theorem signed_in_range_iff (negative : Bool) (n : Nat) :
    (-2 ^ 63 ≤ (if negative then -(n : Int) else n) ∧ (if negative then -(n : Int) else n) ≤ 2 ^ 63 - 1) ↔
      n ≤ limitOf negative := by
  cases negative <;> simp only [limitOf, if_true, Bool.false_eq_true, if_false] <;> omega

theorem readSigned_reads (negative : Bool) {t : Text} (ht : t ≠ []) :
    ∃ read : Option Int64, readSigned negative t = pure read ∧
      ∀ nm : Int, (∃ r, read = some r ∧ Word.number r = nm) ↔
        -2 ^ 63 ≤ nm ∧ nm ≤ 2 ^ 63 - 1 ∧
          ∃ n : Nat, nm = (if negative then -(n : Int) else n) ∧ Numeral 10 decimalDigit t n := by
  have hl : (if negative then (1 : UInt64) <<< 63 else INT64_MAX.toUInt64).toNat =
      limitOf negative := by
    cases negative <;> rfl
  obtain ⟨read, hlp, hrd⟩ := digitLoop_reads 10
    (if negative then (1 : UInt64) <<< 63 else INT64_MAX.toUInt64) decimal_values (by decide)
    (by decide) (by cases negative <;> decide) ht
  rw [hl] at hrd
  have hf : ∀ n, n ≤ limitOf negative → Numeral 10 decimalDigit t n →
      ∃ r : UInt64, read = some r ∧ r.toNat = n := by
    intro n hle hn
    have hw : (UInt64.ofNat n).toNat = n := by
      apply UInt64.toNat_ofNat_of_lt'
      exact Nat.lt_of_le_of_lt hle (by cases negative <;> decide)
    grind
  unfold readSigned
  rw [bind_of_eq_pure hlp]
  cases read with
  | none =>
    refine ⟨none, rfl, fun nm => ⟨nofun, ?_⟩⟩
    rintro ⟨hlw, hh, n, rfl, hn⟩
    obtain ⟨r, hr, -⟩ := hf n ((signed_in_range_iff negative n).mp ⟨hlw, hh⟩) hn
    cases hr
  | some m =>
    obtain ⟨hnm, hle⟩ := (hrd m).mp rfl
    obtain ⟨v, hs, hv⟩ := signed_eq hle
    refine ⟨some v, bind_of_eq_pure hs _, fun nm => ⟨?_, ?_⟩⟩
    · rintro ⟨r, hr, rfl⟩
      cases hr
      show -2 ^ 63 ≤ v.toInt ∧ v.toInt ≤ 2 ^ 63 - 1 ∧ ∃ n : Nat, v.toInt = _ ∧ _
      grind [signed_in_range_iff]
    · rintro ⟨hlw, hh, n, rfl, hn⟩
      obtain ⟨r, hr, rfl⟩ := hf n ((signed_in_range_iff negative n).mp ⟨hlw, hh⟩) hn
      cases hr
      exact ⟨v, rfl, hv⟩

theorem mvh_parse_i64_parses : Parses mvh_parse_i64 SignedDecimal (-2 ^ 63) (2 ^ 63 - 1) := by
  apply Parses.of_read
  · rintro t r (rfl | rfl)
    · rfl
    · rcases t with _ | _ | _ <;> rfl
  · intro t old
    rcases t with _ | ⟨first, rest⟩
    · exact ⟨none, rfl, fun n => ⟨nofun, fun h => absurd h.2.2 (not_signedDecimal_nil n)⟩⟩
    · simp only [signedDecimal_cons_iff]
      by_cases ht : skipSign first rest = []
      · exact ⟨none, if_pos ht, nothing_read ht⟩
      · obtain ⟨read, hl, hr⟩ := readSigned_reads (decide (first = 45)) ht
        simp only [decide_eq_true_eq] at hr
        refine ⟨read, ?_, hr⟩
        grind [bind_of_eq_pure, mvh_parse_i64]

/-- Each parser accepts just its grammar with the numbers of its range. It stores the number, leaves
the result as it was when it fails, and no step on the way overflows. -/
theorem the_parsers_accept_their_grammars :
    Parses mvh_parse_u64 Decimal 0 (2 ^ 64 - 1) ∧
      Parses mvh_parse_hex_u64 Hexadecimal 0 (2 ^ 64 - 1) ∧
      Parses mvh_parse_i64 SignedDecimal (-2 ^ 63) (2 ^ 63 - 1) :=
  ⟨mvh_parse_u64_parses, mvh_parse_hex_u64_parses, mvh_parse_i64_parses⟩

example : mvh_parse_hex_u64 (some (['0', 'x', 'C', '0', 'F', 'F', 'E', 'E'].map code)) (some 7) =
    ⟨(0, some 0xC0FFEE), true⟩ := by
  decide +kernel

end mvh.util
