-- The numbers that texts of digits stand for.
import Mathlib.Data.List.Forall2
import Mathlib.Data.Nat.Digits.Defs

namespace numerals

variable {α : Type} {base : Nat} {digit : α → Option Nat}

def push (base number d : Nat) : Nat := d + base * number

def Numeral (base : Nat) (digit : α → Option Nat) (text : List α) (number : Nat) : Prop :=
  ∃ digits : List Nat, digits ≠ [] ∧ List.Forall₂ (fun c d => digit c = some d) text digits ∧
    number = Nat.ofDigits base digits.reverse

theorem ofDigits_reverse (base : Nat) (d : List Nat) :
    Nat.ofDigits base d.reverse = d.foldl (push base) 0 := by
  rw [Nat.ofDigits_eq_foldr, List.foldr_reverse]
  rfl

theorem le_foldl_push (hb : 0 < base) (dg : List Nat) (number : Nat) :
    number ≤ dg.foldl (push base) number := by
  induction dg generalizing number with
  | nil => exact Nat.le_refl number
  | cons d dg ih =>
    calc number ≤ base * number := Nat.le_mul_of_pos_left number hb
      _ ≤ push base number d := Nat.le_add_left _ _
      _ ≤ (d :: dg).foldl (push base) number := ih _

theorem numeral_iff {t : List α} (ht : t ≠ []) (n : Nat) :
    Numeral base digit t n ↔
      ∃ dg, List.Forall₂ (fun c d => digit c = some d) t dg ∧
        n = dg.foldl (push base) 0 := by
  constructor
  · rintro ⟨dg, -, hd, hn⟩
    exact ⟨dg, hd, hn.trans (ofDigits_reverse base dg)⟩
  · rintro ⟨dg, hd, hn⟩
    refine ⟨dg, ?_, hd, hn.trans (ofDigits_reverse base dg).symm⟩
    rintro rfl
    exact ht (List.forall₂_nil_right_iff.mp hd)

theorem not_numeral_nil (number : Nat) : ¬ Numeral base digit ([] : List α) number := by
  rintro ⟨d, hne, hd, -⟩
  exact hne (List.forall₂_nil_left_iff.mp hd)

theorem Numeral.digit_of_mem {t : List α} {n : Nat} (h : Numeral base digit t n)
    {c : α} (hc : c ∈ t) : ∃ d, digit c = some d := by
  obtain ⟨dg, -, hd, -⟩ := h
  induction hd with
  | nil => cases hc
  | cons hf _ ih => grind

/-! ## Canonical numerals -/

/-- The numeral without superfluous zeros, with a symbol for each digit. -/
def canonical (base : Nat) (symbol : Nat → α) (number : Nat) : List α :=
  (if number = 0 then [0] else (Nat.digits base number).reverse).map symbol

variable {symbol : Nat → α}

theorem canonical_small {n : Nat} (h : n < base) : canonical base symbol n = [symbol n] := by
  unfold canonical
  grind [Nat.digits_of_lt]

theorem canonical_snoc (hb : 1 < base) {number : Nat} (h : number / base ≠ 0) :
    canonical base symbol number = canonical base symbol (number / base) ++ [symbol (number % base)] := by
  have hp : 0 < number := Nat.pos_of_ne_zero fun hz => h (by rw [hz, Nat.zero_div])
  grind [Nat.digits_def', List.reverse_cons, List.map_append, canonical]

theorem canonical_numeral (hb : 1 < base) (hs : ∀ d < base, digit (symbol d) = some d) (number : Nat) :
    Numeral base digit (canonical base symbol number) number := by
  unfold canonical
  by_cases hz : number = 0
  · rw [if_pos hz, hz]
    exact ⟨[0], List.cons_ne_nil _ _, .cons (hs 0 (by omega)) .nil, rfl⟩
  · rw [if_neg hz]
    refine ⟨(Nat.digits base number).reverse, ?_, ?_, ?_⟩
    · intro hn
      exact Nat.digits_ne_nil_iff_ne_zero.mpr hz (List.reverse_eq_nil_iff.mp hn)
    · rw [List.forall₂_map_left_iff, List.forall₂_same]
      intro d hd
      exact hs d (Nat.digits_lt_base hb (List.mem_reverse.mp hd))
    · rw [List.reverse_reverse, Nat.ofDigits_digits]

theorem canonical_eq (hb : 1 < base) (hdt : ∀ c d, digit c = some d → d < base ∧ c = symbol d)
    {text : List α} {n : Nat} (h : Numeral base digit text n)
    (hp : text.length = 1 ∨ ∀ c ∈ text.head?, digit c ≠ some 0) : canonical base symbol n = text := by
  obtain ⟨dg, hne, hdg, rfl⟩ := h
  have ht : text = dg.map symbol := by
    clear hne hp
    induction hdg with
    | nil => rfl
    | cons hf _ ih => rw [List.map_cons, ← ih, ← (hdt _ _ hf).2]
  have hs : ∀ d ∈ dg, d < base := by
    clear hne hp ht
    induction hdg with
    | nil => nofun
    | cons hf _ ih => exact List.forall_mem_cons.mpr ⟨(hdt _ _ hf).1, ih⟩
  cases hdg with
  | nil => exact absurd rfl hne
  | @cons c d text dg hf hrs =>
    rcases hp with ho | hh
    · grind [List.reverse_singleton, Nat.ofDigits_singleton, canonical_small, List.length_eq_zero_iff.mp, List.forall₂_nil_left_iff.mp]
    · have hd : d ≠ 0 := fun hz => hh c rfl (hz ▸ hf)
      have hr : Nat.digits base (Nat.ofDigits base (d :: dg).reverse) = (d :: dg).reverse := by
        grind [List.getLast_reverse, Nat.digits_ofDigits]
      have hn : Nat.ofDigits base (d :: dg).reverse ≠ 0 := by grind [Nat.digits_zero]
      grind [List.reverse_reverse, canonical]

end numerals
