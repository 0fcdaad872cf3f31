-- A roster keeps the first items of a stream in an array with a counter, and counts all
-- of them.
import MvhKernel.Words
import Mathlib.Algebra.Ring.Nat
import Mathlib.Logic.Function.Basic

namespace roster

structure Roster (α : Type) where
  entries : Nat → α
  stored : UInt32
  seen : Nat

variable {α : Type} {limit : UInt32} {n k : Nat} {a b c : Roster α}

def Roster.Full (limit : UInt32) (a : Roster α) : Prop := a.stored.toNat = min limit.toNat a.seen

/-- From one roster to the other at most `n` items came. -/
structure Grows (limit : UInt32) (n : Nat) (a b : Roster α) : Prop where
  entries : ∀ i < a.stored.toNat, b.entries i = a.entries i
  stored : a.stored.toNat ≤ b.stored.toNat
  seen : a.seen + n < 2 ^ 32 → b.seen ≤ a.seen + n
  full : a.seen + n < 2 ^ 32 → a.Full limit → b.Full limit

theorem Grows.same (a : Roster α) : Grows limit n a a :=
  ⟨fun _ _ => rfl, Nat.le_refl _, fun _ => Nat.le_add_right _ _, fun _ h => h⟩

theorem Grows.mono (h : Grows limit n a b) (hle : n ≤ k) : Grows limit k a b := by
  refine ⟨h.entries, h.stored, ?_, ?_⟩
  · intro hlt
    have := h.seen (by omega)
    omega
  · intro hlt
    exact h.full (by omega)

theorem Grows.trans (h1 : Grows limit n a b) (h2 : Grows limit k b c) : Grows limit (n + k) a c := by
  have hs := h1.stored
  refine ⟨?_, Nat.le_trans hs h2.stored, ?_, ?_⟩
  · intro i hi
    rw [h2.entries i (by omega), h1.entries i hi]
  · intro hlt
    have hsn := h1.seen (by omega)
    have := h2.seen (by omega)
    omega
  · intro hlt hf
    have hsn := h1.seen (by omega)
    exact h2.full (by omega) (h1.full (by omega) hf)

theorem Grows.store (hr : a.stored < limit) (v : α) {s : Nat}
    (hs : a.seen + 1 < 2 ^ 32 → s = a.seen + 1) :
    Grows limit 1 a ⟨Function.update a.entries a.stored.toNat v, a.stored + 1, s⟩ := by
  have ho : (1 : UInt32).toNat = 1 := rfl
  have hlt : a.stored.toNat < limit.toNat := UInt32.lt_iff_toNat_lt.mp hr
  have hl := limit.toNat_lt
  have hn : (a.stored + 1).toNat = a.stored.toNat + 1 := by
    rw [UInt32.toNat_add, ho]
    omega
  refine ⟨?_, ?_, ?_, ?_⟩
  · grind
  · grind
  · grind
  grind [Roster.Full]

theorem Grows.skip (hr : ¬ a.stored < limit) {s : Nat}
    (hs : a.seen + 1 < 2 ^ 32 → s = a.seen + 1) :
    Grows limit 1 a ⟨a.entries, a.stored, s⟩ := by
  have hf : limit.toNat ≤ a.stored.toNat := by grind
  refine ⟨fun _ _ => rfl, Nat.le_refl _, fun hlt => Nat.le_of_eq (hs hlt), ?_⟩
  grind [Roster.Full]

/-! ## The list of the items -/

def Roster.kept (a : Roster α) : List α := (List.range a.stored.toNat).map a.entries

theorem Roster.length_kept (a : Roster α) : a.kept.length = a.stored.toNat := by
  rw [Roster.kept, List.length_map, List.length_range]

/-- From one roster to the other these items came, and they were stored as far as there was room. -/
def Takes (limit : UInt32) (a : Roster α) (items : List α) (b : Roster α) : Prop :=
  b.kept = a.kept ++ items.take (limit.toNat - a.stored.toNat)

theorem Takes.nothing (he : b.entries = a.entries) (hs : b.stored = a.stored) : Takes limit a [] b := by
  rw [Takes, List.take_nil, List.append_nil, Roster.kept, Roster.kept, he, hs]

theorem Takes.trans {i m : List α} (h1 : Takes limit a i b) (h2 : Takes limit b m c) :
    Takes limit a (i ++ m) c := by
  have hl := congrArg List.length h1
  rw [List.length_append, Roster.length_kept, Roster.length_kept, List.length_take] at hl
  have hr : limit.toNat - b.stored.toNat = limit.toNat - a.stored.toNat - i.length := by omega
  grind [List.take_append, List.append_assoc, Takes]

theorem Takes.store (hr : a.stored < limit) (v : α) (s : Nat) :
    Takes limit a [v] ⟨Function.update a.entries a.stored.toNat v, a.stored + 1, s⟩ := by
  have ho : (1 : UInt32).toNat = 1 := rfl
  have hlt : a.stored.toNat < limit.toNat := UInt32.lt_iff_toNat_lt.mp hr
  have hl := limit.toNat_lt
  have hn : (a.stored + 1).toNat = a.stored.toNat + 1 := by
    rw [UInt32.toNat_add, ho]
    omega
  have hold : (List.range a.stored.toNat).map (Function.update a.entries a.stored.toNat v) = a.kept := by
    refine List.map_congr_left fun i hi => ?_
    grind
  rw [Takes, List.take_of_length_le (by rw [List.length_singleton]; omega), Roster.kept]
  dsimp only
  rw [hn, List.range_succ, List.map_append, hold, List.map_singleton, Function.update_self]

theorem Takes.skip (hr : ¬ a.stored < limit) (v : α) (s : Nat) :
    Takes limit a [v] ⟨a.entries, a.stored, s⟩ := by
  have hf : limit.toNat ≤ a.stored.toNat := by grind
  rw [Takes, Nat.sub_eq_zero_of_le hf, List.take_zero, List.append_nil]
  rfl

end roster
