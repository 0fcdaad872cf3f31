-- Turns in a circle of numbered places.
import Mathlib

namespace round_robin

variable {n : Nat} [NeZero n]

/-! ## Once around -/

def around (i : Fin n) : List (Fin n) := (List.finRange n).map fun offset => i + (offset + 1)

/-- The number of places between `i` and the place, on the way around. -/
def ahead (i place : Fin n) : Nat := (place - i - 1).val

theorem length_around (i : Fin n) : (around i).length = n := by
  unfold around
  rw [List.length_map, List.length_finRange]

theorem getElem_around (i : Fin n) (j : Nat) (hj : j < (around i).length) :
    (around i)[j] = i + (⟨j, length_around i ▸ hj⟩ + 1) := by
  simp [around]

theorem mem_around (i place : Fin n) : place ∈ around i := by
  refine List.mem_map.mpr ⟨place - i - 1, List.mem_finRange _, ?_⟩
  abel

theorem ahead_offset (i offset : Fin n) : ahead i (i + (offset + 1)) = offset.val := by
  have ho : i + (offset + 1) - i - 1 = offset := by abel
  unfold ahead
  rw [ho]

theorem around_ordered (i : Fin n) : (around i).Pairwise fun a b => ahead i a < ahead i b := by
  unfold around
  rw [List.pairwise_map]
  refine List.Pairwise.imp ?_ (List.pairwise_lt_finRange n)
  simp [ahead_offset]

theorem around_rotate (i o : Fin n) :
    around (i + (o + 1)) = (around i).rotate (o.val + 1) := by
  apply List.ext_getElem
  · rw [List.length_rotate, length_around, length_around]
  intro j hj _
  rw [List.getElem_rotate, getElem_around, getElem_around]
  have hj' : j < n := length_around (i + (o + 1)) ▸ hj
  have hs (hlt : (j + (o.val + 1)) % (around i).length < n) :
      (⟨(j + (o.val + 1)) % (around i).length, hlt⟩ : Fin n) = ⟨j, hj'⟩ + o + 1 := by
    apply Fin.ext
    simp [length_around, Fin.val_add, Nat.add_assoc]
  rw [hs]
  abel

theorem around_of_split {i place : Fin n} {b after : List (Fin n)}
    (h : around i = b ++ place :: after) : around place = after ++ b ++ [place] := by
  have hl : b.length < n := by grind [length_around, List.length_append, List.length_cons]
  have hp : place = i + (⟨b.length, hl⟩ + 1) := by
    have hat := getElem_around i b.length (by rw [length_around]; exact hl)
    grind
  have hs : b ++ place :: after = (b ++ [place]) ++ after := by simp
  have hc : b.length + 1 = (b ++ [place]).length := by simp
  calc around place = (around i).rotate (b.length + 1) := by grind [around_rotate]
    _ = after ++ (b ++ [place]) := by
        rw [h, hs, hc, List.rotate_append_length_eq]
    _ = after ++ b ++ [place] := (List.append_assoc ..).symm

theorem around_last (i : Fin n) : ∃ others, around i = others ++ [i] ∧ i ∉ others := by
  obtain ⟨b, after, hs⟩ := List.append_of_mem (mem_around i i)
  have hl := around_of_split hs
  refine ⟨after ++ b, hl, fun hm => ?_⟩
  have ho := around_ordered i
  rw [hl, List.pairwise_append] at ho
  exact lt_irrefl _ (ho.2.2 i hm i List.mem_cons_self)

/-! ## The first of the best -/

section
variable {α ρ : Type*} [Preorder ρ]

/-- Of the places in the list that can have the turn, the first one of the highest rank. -/
structure IsFirstBest (can : α → Prop) (rank : α → ρ) (places : List α) (best : α) : Prop where
  can_best : can best
  split : ∃ before after, places = before ++ best :: after ∧
    (∀ place ∈ before, can place → rank place < rank best) ∧
    ∀ place ∈ after, can place → rank place ≤ rank best

variable {can : α → Prop} {rank : α → ρ} {places : List α} {best place : α}

theorem IsFirstBest.mem (h : IsFirstBest can rank places best) : best ∈ places := by
  obtain ⟨b, after, rfl, -, -⟩ := h.split
  simp

theorem IsFirstBest.rank_le (h : IsFirstBest can rank places best) (hm : place ∈ places)
    (hc : can place) : rank place ≤ rank best := by
  obtain ⟨b, after, rfl, hb, ha⟩ := h.split
  grind

theorem IsFirstBest.alone (hn : ∀ o ∈ places, ¬ can o) (hc : can place) :
    IsFirstBest can rank (places ++ [place]) place :=
  ⟨hc, places, [], rfl, fun o hm ho => absurd ho (hn o hm), nofun⟩

theorem IsFirstBest.keep (h : IsFirstBest can rank places best)
    (hle : can place → rank place ≤ rank best) : IsFirstBest can rank (places ++ [place]) best := by
  obtain ⟨b, after, rfl, hb, ha⟩ := h.split
  refine ⟨h.can_best, b, after ++ [place], by simp, hb, fun o hm hc => ?_⟩
  grind

theorem IsFirstBest.replace (h : IsFirstBest can rank places best) (hc : can place)
    (hlt : rank best < rank place) : IsFirstBest can rank (places ++ [place]) place :=
  ⟨hc, places, [], rfl, fun _ hm ho => (h.rank_le hm ho).trans_lt hlt, nofun⟩

end

theorem IsFirstBest.ahead_le {ρ : Type*} [Preorder ρ] {can : Fin n → Prop} {rank : Fin n → ρ}
    {i best place : Fin n} (h : IsFirstBest can rank (around i) best) (hc : can place)
    (hr : rank best ≤ rank place) : ahead i best ≤ ahead i place := by
  obtain ⟨b, after, hs, hb, -⟩ := h.split
  have ho := around_ordered i
  have hm := mem_around i place
  rw [hs, List.pairwise_append] at ho
  rw [hs] at hm
  rcases List.mem_append.mp hm with hm | hm
  · grind
  rcases List.mem_cons.mp hm with rfl | hm
  · exact le_refl _
  · exact ((List.pairwise_cons.mp ho.2.1).1 place hm).le

/-! ## Turn after turn -/

def shown {S α : Type*} (step : S → S) (value : S → α) (s : S) : Nat → List α
  | 0 => []
  | k + 1 => value (step s) :: shown step value (step s) k

section
variable {S : Type*} {step : S → S} {turn : S → Option (Fin n)} {invariant : S → Prop}
variable (served : Fin n → Prop) [DecidablePred served]

def queue (i : Fin n) : List (Fin n) := (around i).filter fun place => served place

/-- Every step gives the turn to the first of the served places that comes up. -/
def Serves (step : S → S) (turn : S → Option (Fin n)) (invariant : S → Prop) : Prop :=
  ∀ s, invariant s → invariant (step s) ∧ ∃ i next before after, turn s = some i ∧
    turn (step s) = some next ∧ around i = before ++ next :: after ∧ served next ∧
    ∀ place ∈ before, ¬ served place

variable {served}

theorem mem_queue {i place : Fin n} : place ∈ queue served i ↔ served place := by
  simp [queue, mem_around]

theorem queue_ordered (i : Fin n) : (queue served i).Pairwise fun a b => ahead i a < ahead i b :=
  (around_ordered i).filter _

theorem length_queue (places : Finset (Fin n)) (i : Fin n) :
    (queue (· ∈ places) i).length = places.card := by
  have hn : (queue (· ∈ places) i).Nodup := by
    refine List.Pairwise.imp ?_ (queue_ordered i)
    grind
  rw [← List.toFinset_card_of_nodup hn]
  refine congrArg Finset.card (Finset.ext fun place => ?_)
  rw [List.mem_toFinset]
  exact mem_queue

theorem queue_of_split {i next : Fin n} {b after : List (Fin n)}
    (hsp : around i = b ++ next :: after) (hs : served next)
    (hb : ∀ place ∈ b, ¬ served place) :
    ∃ rest, queue served i = next :: rest ∧ queue served next = rest ++ [next] := by
  have hn : (b.filter fun place => served place) = [] := by grind [List.filter_eq_nil_iff.mpr]
  refine ⟨after.filter fun place => served place, ?_, ?_⟩
  · unfold queue
    grind
  · unfold queue
    rw [around_of_split hsp, List.filter_append, List.filter_append, hn, List.append_nil]
    simp [hs]

theorem Serves.shown_eq (h : Serves served step turn invariant) {s : S} (hs : invariant s)
    {i : Fin n} (ht : turn s = some i) {k : Nat} (hk : k ≤ (queue served i).length) :
    shown step turn s k = ((queue served i).take k).map some := by
  induction k generalizing s i with
  | zero => rfl
  | succ k ih =>
    obtain ⟨hn, i', next, b, after, hat, hg, hsp, hsr, hb⟩ := h s hs
    cases ht.symm.trans hat
    obtain ⟨rest, hq, hth⟩ := queue_of_split hsp hsr hb
    rw [hq, List.length_cons] at hk
    have hr := ih hn hg (by rw [hth, List.length_append]; omega)
    grind [List.take_append_of_le_length, shown]

end

end round_robin
