-- A ring of places for the last values.
import MvhKernel.Words
import Mathlib.Data.List.DropRight
import Mathlib.Data.Nat.ModEq
import Mathlib.Logic.Function.Basic

namespace ring_buffer

structure Buffer (α : Type) where
  data : Nat → α
  start : Nat
  length : Nat

section
variable {α : Type}

def contents (places : Nat) (r : Buffer α) : List α :=
  (List.range r.length).map fun i => r.data ((r.start + i) % places)

/-- A value is put behind the others. -/
def put (places : Nat) (r : Buffer α) (value : α) : Buffer α :=
  if r.length < places then
    { r with data := Function.update r.data ((r.start + r.length) % places) value, length := r.length + 1 }
  else { r with data := Function.update r.data r.start value, start := (r.start + 1) % places }

/-- The start is a place, and there are no more values than places. -/
structure Valid (places : Nat) (r : Buffer α) : Prop where
  start : r.start < places
  length : r.length ≤ places

variable {places : Nat} {r : Buffer α}

theorem length_contents (places : Nat) (r : Buffer α) : (contents places r).length = r.length := by
  rw [contents, List.length_map, List.length_range]

theorem Valid.put (h : Valid places r) (v : α) : Valid places (put places r v) := by
  have hs := h.start
  have hl := h.length
  unfold ring_buffer.put
  split
  · exact ⟨hs, by dsimp only; omega⟩
  · exact ⟨Nat.mod_lt _ (by omega), hl⟩

theorem place_ne (s : Nat) {i j : Nat} (hi : i < places) (hj : j < places) (hij : i ≠ j) :
    (s + i) % places ≠ (s + j) % places := by
  intro h
  have hm : s + i ≡ s + j [MOD places] := h
  exact hij (Nat.ModEq.eq_of_lt_of_lt (Nat.ModEq.add_left_cancel' s hm) hi hj)

theorem contents_put_free (v : α) (hf : r.length < places) :
    contents places (put places r v) = contents places r ++ [v] := by
  unfold put contents
  rw [if_pos hf]
  dsimp only
  rw [List.range_succ, List.map_append, List.map_singleton, Function.update_self]
  refine congrArg (· ++ [v]) (List.map_congr_left fun i hi => ?_)
  have hi := List.mem_range.mp hi
  exact Function.update_of_ne (place_ne r.start (by omega) hf (by omega)) ..

theorem contents_put_full (h : Valid places r) (v : α) (hf : r.length = places) :
    contents places (put places r v) = (contents places r).tail ++ [v] := by
  have hs := h.start
  obtain ⟨o, ho⟩ : ∃ o, places = o + 1 := ⟨places - 1, by omega⟩
  unfold put contents
  rw [if_neg (by omega)]
  dsimp only
  rw [hf, ho, List.range_succ, List.map_append, List.map_singleton, ← List.range_succ, List.range_succ_eq_map,
    List.map_cons, List.tail_cons, List.map_map, ← ho]
  have hl : ((r.start + 1) % places + o) % places = r.start := by
    rw [Nat.mod_add_mod, Nat.add_assoc, Nat.add_comm 1 o, ← ho, Nat.add_mod_right, Nat.mod_eq_of_lt hs]
  rw [hl, Function.update_self]
  refine congrArg (· ++ [v]) (List.map_congr_left fun i hi => ?_)
  have hi := List.mem_range.mp hi
  have hn : ((r.start + 1) % places + i) % places = (r.start + (i + 1)) % places := by
    rw [Nat.mod_add_mod, Nat.add_assoc, Nat.add_comm 1 i]
  have hne : (r.start + (i + 1)) % places ≠ r.start := by
    have hz : (r.start + (i + 1)) % places ≠ (r.start + 0) % places :=
      place_ne r.start (by omega) (by omega) (by omega)
    rwa [Nat.add_zero r.start, Nat.mod_eq_of_lt hs] at hz
  grind

theorem contents_put (h : Valid places r) (v : α) :
    contents places (put places r v) = (contents places r ++ [v]).rtake places := by
  have hl := h.length
  have hs := h.start
  rw [List.rtake, List.length_append, List.length_singleton, length_contents]
  by_cases hf : r.length < places
  · have hn : r.length + 1 - places = 0 := by omega
    rw [contents_put_free v hf, hn, List.drop_zero]
  · have hfl : r.length = places := by omega
    have ho : r.length + 1 - places = 1 := by omega
    have hsm : contents places r ≠ [] := List.ne_nil_of_length_pos (by rw [length_contents]; omega)
    grind [contents_put_full, List.drop_one, List.tail_append_of_ne_nil]

theorem rtake_rtake_append (l more : List α) (n : Nat) : (l.rtake n ++ more).rtake n = (l ++ more).rtake n := by
  unfold List.rtake
  rw [List.length_append, List.length_append, List.length_drop]
  by_cases hsh : l.length ≤ n
  · have hn : l.length - n = 0 := by omega
    rw [hn, List.drop_zero, Nat.sub_zero]
  · have hs : l.length + more.length - n = (l.length - n) + (l.length - (l.length - n) + more.length - n) := by omega
    have hd : (l ++ more).drop (l.length - n) = l.drop (l.length - n) ++ more := by grind
    rw [hs, ← List.drop_drop, hd]

theorem contents_puts (h : Valid places r) (v : List α) :
    contents places (v.foldl (put places) r) = (contents places r ++ v).rtake places := by
  induction v generalizing r with
  | nil =>
    have hn : (contents places r).length - places = 0 := by
      have hl := h.length
      rw [length_contents]
      omega
    rw [List.foldl_nil, List.append_nil, List.rtake, hn, List.drop_zero]
  | cons vl v ih =>
    rw [List.foldl_cons, ih (h.put vl), contents_put h, rtake_rtake_append, List.append_assoc, List.singleton_append]

end

end ring_buffer
