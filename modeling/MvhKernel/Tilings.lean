-- Intervals of numbers that are cut into pieces without gaps, where each start says how
-- far a piece may reach.
import Mathlib.Data.List.Basic
import Mathlib.Data.List.Chain

namespace tilings

/-- The pieces, with their starts and lengths, fill the numbers from `a` up to `b` in order. -/
inductive Tiles : Nat → Nat → List (Nat × Nat) → Prop
  | nil (a : Nat) : Tiles a a []
  | cons {a b n : Nat} {rest : List (Nat × Nat)} (pos : 0 < n) (tail : Tiles (a + n) b rest) :
      Tiles a b ((a, n) :: rest)

def In (x : Nat) (p : Nat × Nat) : Prop := p.1 ≤ x ∧ x < p.1 + p.2

variable {a b : Nat} {pieces : List (Nat × Nat)}

/-! ## What tiles look like -/

theorem Tiles.le (h : Tiles a b pieces) : a ≤ b := by
  induction h with
  | nil a => exact le_refl a
  | cons pos tail ih => omega

theorem Tiles.nonempty (h : Tiles a b pieces) : ∀ p ∈ pieces, 0 < p.2 := by
  induction h with
  | nil a => exact fun _ hp => absurd hp List.not_mem_nil
  | cons pos tail ih => grind

theorem Tiles.covers (h : Tiles a b pieces) (x : Nat) : (∃ p ∈ pieces, In x p) ↔ a ≤ x ∧ x < b := by
  induction h with
  | nil a => exact iff_of_false (fun ⟨p, hp, _⟩ => absurd hp List.not_mem_nil) (by omega)
  | @cons a b n rest pos tail ih =>
    have hle := tail.le
    rw [List.exists_mem_cons_iff, ih]
    unfold In
    dsimp only
    omega

theorem Tiles.ascending (h : Tiles a b pieces) : pieces.Pairwise fun p q => p.1 < q.1 := by
  induction h with
  | nil a => exact List.Pairwise.nil
  | @cons a b n rest pos tail ih =>
    refine List.Pairwise.cons (fun q hq => ?_) ih
    have hq' := (tail.covers q.1).mp ⟨q, hq, le_refl _, by have := tail.nonempty q hq; omega⟩
    dsimp only
    omega

theorem Tiles.adjacent (h : Tiles a b pieces) : pieces.IsChain fun p q => p.1 + p.2 = q.1 := by
  induction h with
  | nil a => exact List.IsChain.nil
  | cons pos tail ih =>
    cases tail with
    | nil => exact List.IsChain.singleton _
    | cons p' t' => exact List.IsChain.cons_cons rfl ih

theorem tiles_of_covers (hn : ∀ p ∈ pieces, 0 < p.2) (has : pieces.Pairwise fun p q => p.1 < q.1)
    (ha : pieces.IsChain fun p q => p.1 + p.2 = q.1) (hab : a ≤ b)
    (hc : ∀ x, (∃ p ∈ pieces, In x p) ↔ a ≤ x ∧ x < b) : Tiles a b pieces := by
  induction pieces generalizing a with
  | nil =>
    obtain rfl : a = b := by
      by_contra hne
      obtain ⟨p, hp, _⟩ := (hc a).mpr ⟨le_refl a, by omega⟩
      exact absurd hp List.not_mem_nil
    exact .nil a
  | cons p rest ih =>
    obtain ⟨s, n⟩ := p
    have hps : 0 < n := hn (s, n) List.mem_cons_self
    obtain ⟨hh, ht⟩ := List.pairwise_cons.mp has
    have hin := (hc s).mp ⟨(s, n), List.mem_cons_self, le_refl _, by dsimp only; omega⟩
    -- the first number lies in a piece that does not s before this one
    obtain rfl : s = a := by
      obtain ⟨q, hq, hlw, _⟩ := (hc a).mpr ⟨le_refl a, by omega⟩
      rcases List.mem_cons.mp hq with rfl | hq
      · exact Nat.le_antisymm hlw hin.1
      · have hl := hh q hq
        dsimp only at hl
        omega
    have hls := (hc (s + n - 1)).mp ⟨(s, n), List.mem_cons_self, by dsimp only; omega, by dsimp only; omega⟩
    have haf : ∀ q ∈ rest, s + n ≤ q.1 := by
      intro q hq
      cases rest with
      | nil => exact absurd hq List.not_mem_nil
      | cons r rest =>
        have hnx : s + n = r.1 := ha.rel
        rcases List.mem_cons.mp hq with rfl | hq
        · exact hnx.le
        · have hl := (List.pairwise_cons.mp ht).1 q hq
          omega
    refine .cons hps (ih (fun q hq => hn q (List.mem_cons_of_mem _ hq)) ht ha.tail (by omega) fun x => ?_)
    have hx := hc x
    rw [List.exists_mem_cons_iff] at hx
    constructor
    · rintro ⟨q, hq, hxq⟩
      have hb := hx.mp (Or.inr ⟨q, hq, hxq⟩)
      have hs := haf q hq
      have hlw := hxq.1
      omega
    · rintro ⟨hlw, hhg⟩
      rcases hx.mpr ⟨by omega, hhg⟩ with hf | hr
      · have he := hf.2
        dsimp only at he
        omega
      · exact hr

/-! ## The greedy cut -/

section
variable (reach : Nat → Nat)

def Reaches (pieces : List (Nat × Nat)) : Prop := ∀ p ∈ pieces, p.1 + p.2 ≤ reach p.1

def greedy : Nat → Nat → Nat → List (Nat × Nat)
  | 0, _, _ => []
  | steps + 1, a, b =>
    if a < b then (a, min (b - a) (reach a - a)) :: greedy steps (a + min (b - a) (reach a - a)) b else []

variable {reach}

theorem greedy_end (steps : Nat) (b : Nat) : greedy reach steps b b = [] := by
  cases steps with
  | zero => rfl
  | succ steps => exact if_neg (lt_irrefl b)

theorem greedy_steps (hr : ∀ a, a < reach a) {steps s' : Nat} (h : b ≤ a + steps) (h' : b ≤ a + s') :
    greedy reach steps a b = greedy reach s' a b := by
  induction steps generalizing a s' with
  | zero =>
    cases s' with
    | zero => rfl
    | succ s' => exact (if_neg (by omega)).symm
  | succ steps ih =>
    cases s' with
    | zero => exact if_neg (by omega)
    | succ s' =>
      have hp := hr a
      grind [greedy]

theorem greedy_cons (hr : ∀ a, a < reach a) {n : Nat} (hab : a < b) (hn : n = min (b - a) (reach a - a))
    {steps s' : Nat} (h : b ≤ a + steps) (h' : b ≤ a + n + s') :
    greedy reach steps a b = (a, n) :: greedy reach s' (a + n) b := by
  cases steps with
  | zero => omega
  | succ steps =>
    have hp := hr a
    grind [greedy, greedy_steps]

theorem greedy_tiles (hr : ∀ a, a < reach a) {steps : Nat} (hab : a ≤ b) (hs : b ≤ a + steps) :
    Tiles a b (greedy reach steps a b) := by
  induction steps generalizing a with
  | zero =>
    obtain rfl : a = b := by omega
    exact .nil a
  | succ steps ih =>
    unfold greedy
    split
    next hlt =>
      have hp := hr a
      exact .cons (by omega) (ih (by omega) (by omega))
    next hlt =>
      obtain rfl : a = b := by omega
      exact .nil a

theorem greedy_reaches (hr : ∀ a, a < reach a) (steps a b : Nat) : Reaches reach (greedy reach steps a b) := by
  induction steps generalizing a with
  | zero => exact fun _ hp => absurd hp List.not_mem_nil
  | succ steps ih =>
    unfold greedy
    split
    · intro p hp
      rcases List.mem_cons.mp hp with rfl | hp
      · grind
      · exact ih _ p hp
    · exact fun _ hp => absurd hp List.not_mem_nil

theorem greedy_le (hm : ∀ a a', a ≤ a' → reach a ≤ reach a') (h : Tiles a b pieces) (hr : Reaches reach pieces)
    {a' : Nat} (haa : a ≤ a') (hab : a' ≤ b) (steps : Nat) : (greedy reach steps a' b).length ≤ pieces.length := by
  induction h generalizing a' steps with
  | nil a => grind [greedy_end]
  | @cons a b n rest pos tail ih =>
    have hle := tail.le
    have he : a + n ≤ reach a := hr (a, n) List.mem_cons_self
    have hf := hm a a' haa
    cases steps with
    | zero => exact Nat.zero_le _
    | succ steps =>
      unfold greedy
      split
      · rw [List.length_cons, List.length_cons]
        refine Nat.succ_le_succ (ih (fun p hp => hr p (List.mem_cons_of_mem _ hp)) ?_ ?_ steps)
        · omega
        · omega
      · exact Nat.zero_le _

end

end tilings
