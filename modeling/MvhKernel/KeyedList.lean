-- Lists whose elements have keys of their own: the place of a key, an element that is
-- changed or taken out at its place, and sums over the elements.
import Mathlib.Algebra.Ring.Nat
import Mathlib.Data.List.Nodup
import Mathlib.Algebra.BigOperators.Group.List.Basic

namespace keyed_list

variable {α κ : Type}

def place [DecidableEq κ] (key : α → κ) (l : List α) (k : κ) : Option Nat := l.findIdx? fun a => key a == k

def Unique (key : α → κ) (l : List α) : Prop := (l.map key).Nodup

section
variable {key : α → κ} {l : List α} {k : κ} {p : Nat} {a b : α} {f : α → α}

theorem place_some [DecidableEq κ] (h : place key l k = some p) : ∃ a, l[p]? = some a ∧ key a = k := by
  obtain ⟨hlt, hk, _⟩ := List.findIdx?_eq_some_iff_getElem.mp h
  grind

theorem place_eq_none_iff [DecidableEq κ] : place key l k = none ↔ ∀ a ∈ l, key a ≠ k := by
  unfold place
  rw [List.findIdx?_eq_none_iff]
  simp

theorem Unique.place_inj {q : Nat} (h : Unique key l) (ha : l[p]? = some a) (hb : l[q]? = some b)
    (hk : key a = key b) : p = q := by
  have hp : p < (l.map key).length := by grind
  apply (List.getElem?_inj hp h).mp
  grind

theorem Unique.place_eq [DecidableEq κ] (h : Unique key l) (ha : l[p]? = some a) : place key l (key a) = some p := by
  cases hp : place key l (key a) with
  | none => exact absurd rfl (place_eq_none_iff.mp hp a (List.mem_of_getElem? ha))
  | some q =>
    obtain ⟨b, hb, hk⟩ := place_some hp
    rw [h.place_inj hb ha hk]

theorem Unique.eq_of_key (h : Unique key l) (ha : a ∈ l) (hb : b ∈ l) (hk : key a = key b) : a = b := by
  obtain ⟨p, hp⟩ := List.mem_iff_getElem?.mp ha
  obtain ⟨q, hq⟩ := List.mem_iff_getElem?.mp hb
  obtain rfl := h.place_inj hp hq hk
  grind

/-! ## A change at a place -/

theorem map_modify (hf : ∀ a, l[p]? = some a → key (f a) = key a) :
    (l.modify p f).map key = l.map key := by
  apply List.ext_getElem?
  grind

theorem Unique.modify (h : Unique key l) (hf : ∀ a, l[p]? = some a → key (f a) = key a) :
    Unique key (l.modify p f) := by
  unfold Unique
  rw [map_modify hf]
  exact h

theorem Unique.mem_modify (h : Unique key l) (ha : l[p]? = some a) :
    b ∈ l.modify p f ↔ b = f a ∨ (b ∈ l ∧ key b ≠ key a) := by
  constructor
  · intro hb
    obtain ⟨q, hq⟩ := List.mem_iff_getElem?.mp hb
    rw [List.getElem?_modify] at hq
    cases hg : l[q]? with
    | none =>
      rw [hg] at hq
      cases hq
    | some c =>
      rw [hg] at hq
      by_cases heq : p = q
      · grind
      · simp only [heq, if_false] at hq
        obtain rfl := Option.some.inj hq
        exact Or.inr ⟨List.mem_of_getElem? hg, fun hk => heq (h.place_inj ha hg hk.symm)⟩
  · rintro (rfl | ⟨hb, hne⟩)
    · apply List.mem_of_getElem? (i := p)
      grind
    · obtain ⟨q, hq⟩ := List.mem_iff_getElem?.mp hb
      have hpq : p ≠ q := by
        rintro rfl
        grind
      apply List.mem_of_getElem? (i := q)
      grind

theorem sum_modify (g : α → Nat) (ha : l[p]? = some a) :
    ((l.modify p f).map g).sum + g a = (l.map g).sum + g (f a) := by
  induction l generalizing p with
  | nil => cases ha
  | cons c l ih => grind

/-! ## An element taken out -/

theorem Unique.eraseIdx (h : Unique key l) : Unique key (l.eraseIdx p) :=
  h.sublist ((List.eraseIdx_sublist l p).map key)

theorem Unique.mem_eraseIdx (h : Unique key l) (ha : l[p]? = some a) :
    b ∈ l.eraseIdx p ↔ b ∈ l ∧ key b ≠ key a := by
  rw [List.mem_eraseIdx_iff_getElem?]
  constructor
  · rintro ⟨q, hq, hb⟩
    exact ⟨List.mem_of_getElem? hb, fun hk => hq (h.place_inj hb ha hk)⟩
  grind [Option.some.inj, List.mem_iff_getElem?.mp]

theorem sum_eraseIdx (g : α → Nat) (ha : l[p]? = some a) :
    ((l.eraseIdx p).map g).sum + g a = (l.map g).sum := by
  induction l generalizing p with
  | nil => cases ha
  | cons c l ih =>
    cases p with
    | zero => grind
    | succ p =>
      have hr := ih ha
      grind

theorem Unique.append (h : Unique key l) (hn : ∀ b ∈ l, key b ≠ key a) : Unique key (l ++ [a]) := by
  unfold Unique
  rw [List.map_append, List.map_singleton]
  refine List.Nodup.append h (List.nodup_singleton _) ?_
  intro k hk hka
  grind

end

end keyed_list
