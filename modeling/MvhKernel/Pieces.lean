-- Lists that are cut into pieces, where every piece says at its front how long it is.
import Mathlib.Data.List.Basic

namespace pieces

/-- How long the piece at the front of a list is, if there is one. -/
structure Format (α : Type) where
  size : List α → Option Nat
  pos : ∀ {l n}, size l = some n → 0 < n
  le : ∀ {l n}, size l = some n → n ≤ l.length
  stable : ∀ {l n}, size l = some n → ∀ rest, size (l.take n ++ rest) = some n

variable {α : Type} (format : Format α)

def Format.IsPiece (p : List α) : Prop := format.size p = some p.length

/-- The list is these pieces, one after the other, and then the rest. -/
structure Format.Cuts (l : List α) (ps : List (List α)) (rest : List α) : Prop where
  eq : l = ps.flatten ++ rest
  each : ∀ p ∈ ps, format.IsPiece p

def Format.Splits (l : List α) (ps : List (List α)) : Prop := format.Cuts l ps []

variable {format} {l rest p : List α} {ps done : List (List α)} {n : Nat}

theorem cuts_nil (l : List α) : format.Cuts l [] l := ⟨rfl, fun _ hp => absurd hp List.not_mem_nil⟩

theorem Format.IsPiece.size_append (h : format.IsPiece p) (rest : List α) :
    format.size (p ++ rest) = some p.length := by
  have hs := format.stable h rest
  rwa [List.take_length] at hs

theorem Format.IsPiece.ne_nil (h : format.IsPiece p) : p ≠ [] :=
  List.ne_nil_of_length_pos (format.pos h)

theorem isPiece_take (h : format.size l = some n) : format.IsPiece (l.take n) := by
  have hs := format.stable h []
  rw [List.append_nil] at hs
  rw [Format.IsPiece, hs, List.length_take_of_le (format.le h)]

theorem Format.Cuts.size_eq (h : format.Cuts l (p :: ps) rest) : format.size l = some p.length := by
  rw [h.eq, List.flatten_cons, List.append_assoc]
  exact (h.each p List.mem_cons_self).size_append _

theorem Format.Cuts.tail (h : format.Cuts (p ++ l) (p :: ps) rest) : format.Cuts l ps rest := by
  refine ⟨?_, fun q hq => h.each q (List.mem_cons_of_mem p hq)⟩
  have heq := h.eq
  rw [List.flatten_cons, List.append_assoc] at heq
  exact List.append_cancel_left heq

theorem Format.Cuts.nil_of_size (h : format.Cuts l ps rest) (hs : format.size l = none) : ps = [] := by
  cases ps with
  | nil => rfl
  | cons p ps =>
    rw [h.size_eq] at hs
    cases hs

theorem Format.Cuts.snoc (h : format.Cuts l done rest) (hs : format.size rest = some n) :
    format.Cuts l (done ++ [rest.take n]) (rest.drop n) := by
  constructor
  · rw [List.flatten_append, List.flatten_singleton, List.append_assoc, List.take_append_drop]
    exact h.eq
  · intro p hp
    rcases List.mem_append.mp hp with hp | hp
    · exact h.each p hp
    grind [isPiece_take]

theorem Format.Cuts.continues {left : List α} (hd : format.Cuts l done left) (h : format.Cuts l ps rest) :
    (∃ more, ps = done ++ more ∧ format.Cuts left more rest) ∨ ∃ more, done = ps ++ more := by
  induction done generalizing l ps with
  | nil =>
    obtain rfl : l = left := hd.eq
    exact Or.inl ⟨ps, rfl, h⟩
  | cons p done ih =>
    cases ps with
    | nil => exact Or.inr ⟨p :: done, rfl⟩
    | cons q ps =>
      have hp : l = p ++ (done.flatten ++ left) := by
        rw [hd.eq, List.flatten_cons, List.append_assoc]
      have hq : l = q ++ (ps.flatten ++ rest) := by
        simp [h.eq, List.flatten_cons, List.append_assoc]
      have hl : p.length = q.length := Option.some.inj (hd.size_eq.symm.trans h.size_eq)
      obtain rfl : p = q := (List.append_inj (hp.symm.trans hq) hl).1
      have hd' : format.Cuts (done.flatten ++ left) done left := by
        rw [hp] at hd
        exact hd.tail
      have h' : format.Cuts (done.flatten ++ left) ps rest := by
        rw [hp] at h
        exact h.tail
      grind

theorem Format.Splits.continues (h : format.Splits l ps) {left : List α} (hd : format.Cuts l done left) :
    ∃ more, ps = done ++ more ∧ format.Splits left more := by
  rcases Format.Cuts.continues hd h with hm | ⟨more, hps⟩
  · exact hm
  · -- the other cut has no rest, so it has no pieces more either
    have heq : ps.flatten ++ [] = (ps ++ more).flatten ++ left := by
      rw [← hps, ← hd.eq]
      exact h.eq.symm
    rw [List.flatten_append, List.append_assoc] at heq
    have hn := List.append_cancel_left heq
    obtain ⟨hf, hl⟩ := List.append_eq_nil_iff.mp hn.symm
    refine ⟨[], ?_, ?_⟩
    · cases more with
      | nil => rw [hps, List.append_nil, List.append_nil]
      | cons p more =>
        have hp := hd.each p (by rw [hps]; simp)
        rw [List.flatten_cons] at hf
        exact absurd (List.append_eq_nil_iff.mp hf).1 hp.ne_nil
    · rw [hl]
      exact cuts_nil []

theorem Format.Cuts.not_splits (hd : format.Cuts l done rest) (hs : format.size rest = none) (hne : rest ≠ []) :
    ¬ format.Splits l ps := by
  intro h
  obtain ⟨m, _, hm⟩ := h.continues hd
  obtain rfl := Format.Cuts.nil_of_size hm hs
  exact hne hm.eq

theorem Format.Splits.unique {qs : List (List α)} (h : format.Splits l ps) (h' : format.Splits l qs) : ps = qs := by
  obtain ⟨m, rfl, hm⟩ := h.continues h'
  have hf := hm.eq
  cases m with
  | nil => exact List.append_nil qs
  | cons p m =>
    rw [List.append_nil, List.flatten_cons] at hf
    exact absurd (List.append_eq_nil_iff.mp hf.symm).1 (hm.each p List.mem_cons_self).ne_nil

end pieces
