-- Memory in which only some places may be read and only some may be written.
import MvhKernel.Words
import Mathlib

namespace guarded_memory

structure Memory (α : Type) where
  cells : Nat → α
  readable : Nat → Bool
  writable : Nat → Bool

variable {α : Type} {m : Memory α} {a d : Nat} {text more : List α} {c : α}

namespace Memory

def load (m : Memory α) (a : Nat) : Option α := if m.readable a then some (m.cells a) else none

def put (m : Memory α) (a : Nat) (c : α) : Option (Memory α) :=
  if m.writable a then some { m with cells := Function.update m.cells a c } else none

def written (m : Memory α) (d : Nat) (text : List α) : Memory α :=
  { m with cells := fun x => if d ≤ x then (text[x - d]?).getD (m.cells x) else m.cells x }

def Open (m : Memory α) (d n : Nat) : Prop := ∀ i < n, m.writable (d + i) = true

def Begins (m : Memory α) (a : Nat) (text : List α) : Prop :=
  ∀ i c, text[i]? = some c → m.load (a + i) = some c

end Memory

open Memory

/-! ## What has been written -/

@[grind =] theorem written_outside {x : Nat} (h : x < d ∨ d + text.length ≤ x) : (m.written d text).cells x = m.cells x := by
  show (if d ≤ x then _ else _) = _
  grind

theorem written_inside {i : Nat} (h : text[i]? = some c) : (m.written d text).cells (d + i) = c := by
  show (if d ≤ d + i then _ else _) = _
  simp [Nat.add_sub_cancel_left, h]

@[grind =] theorem written_nil (m : Memory α) (d : Nat) : m.written d [] = m :=
  congrArg (Memory.mk · _ _) (funext fun x => written_outside (Nat.lt_or_ge x d))

theorem written_over (m : Memory α) (d : Nat) (text : List α) {old more : List α} (h : old.length ≤ more.length) :
    (m.written d (text ++ old)).written (d + text.length) more = m.written d (text ++ more) := by
  refine congrArg (Memory.mk · _ _) (funext fun x => ?_)
  show ((m.written d (text ++ old)).written (d + text.length) more).cells x = (m.written d (text ++ more)).cells x
  by_cases hb : x < d + text.length
  · rw [written_outside (.inl hb)]
    by_cases hx : x < d
    · grind
    · obtain ⟨i, rfl⟩ := Nat.exists_eq_add_of_le (Nat.not_lt.mp hx)
      have hi : i < text.length := by omega
      have hlf (rest : List α) : (text ++ rest)[i]? = some text[i] := by grind
      grind [written_inside]
  · obtain ⟨i, rfl⟩ := Nat.exists_eq_add_of_le (Nat.not_lt.mp hb)
    by_cases hi : i < more.length
    · have hm : (text ++ more)[text.length + i]? = some more[i] := by grind
      rw [written_inside (List.getElem?_eq_getElem hi), Nat.add_assoc, written_inside hm]
    · grind

@[grind =] theorem written_append (m : Memory α) (d : Nat) (text more : List α) :
    (m.written d text).written (d + text.length) more = m.written d (text ++ more) := by
  have hn : ([] : List α).length ≤ more.length := Nat.zero_le _
  have ho := written_over m d text hn
  rwa [List.append_nil] at ho

theorem put_eq (h : m.writable d = true) (c : α) : m.put d c = some (m.written d [c]) := by
  unfold put
  rw [if_pos h]
  refine congrArg some (congrArg (Memory.mk · _ _) (funext fun x => ?_))
  grind

/-! ## What can be read -/

theorem begins_nil (m : Memory α) (a : Nat) : m.Begins a [] := nofun

theorem begins_cons : m.Begins a (c :: text) ↔ m.load a = some c ∧ m.Begins (a + 1) text := by
  constructor
  · intro h
    refine ⟨h 0 c rfl, fun i e hi => ?_⟩
    rw [Nat.add_right_comm]
    exact h (i + 1) e hi
  · rintro ⟨hf, hr⟩ i e hi
    cases i with
    | zero =>
      cases hi
      exact hf
    | succ i =>
      have hl := hr i e hi
      rwa [Nat.add_right_comm] at hl

theorem Memory.Begins.left (h : m.Begins a (text ++ more)) : m.Begins a text := by
  intro i e hi
  refine h i e ?_
  grind

theorem Memory.Begins.right (h : m.Begins a (text ++ more)) : m.Begins (a + text.length) more := by
  intro i e hi
  rw [Nat.add_assoc]
  refine h (text.length + i) e ?_
  grind

theorem Memory.Begins.written (h : m.Begins a text) (ha : a + text.length ≤ d ∨ d + more.length ≤ a) :
    (m.written d more).Begins a text := by
  intro i e hi
  have hlt := (List.getElem?_eq_some_iff.mp hi).1
  rw [← h i e hi]
  unfold load
  rw [written_outside (by omega)]
  rfl

theorem begins_written (h : ∀ i < text.length, m.readable (d + i) = true) : (m.written d text).Begins d text := by
  intro i e hi
  unfold load
  rw [written_inside hi]
  exact if_pos (h i (List.getElem?_eq_some_iff.mp hi).1)

/-! ## Writing one after the other -/

theorem Memory.Open.first (h : m.Open d (text.length + 1)) : m.writable d = true := h 0 (Nat.zero_lt_succ _)

theorem Memory.Open.rest (h : m.Open d (text.length + 1)) (c : α) : (m.written d [c]).Open (d + 1) text.length := by
  intro i hi
  rw [Nat.add_right_comm]
  exact h (i + 1) (Nat.succ_lt_succ hi)

def putAll (m : Memory α) (d : Nat) : List α → Option (Memory α)
  | [] => some m
  | c :: text => do
    let m ← m.put d c
    putAll m (d + 1) text

theorem putAll_eq (h : m.Open d text.length) : putAll m d text = some (m.written d text) := by
  induction text generalizing m d with
  | nil => rw [putAll, written_nil]
  | cons c text ih =>
    rw [putAll, put_eq h.first]
    exact (ih (h.rest c)).trans (congrArg some (written_append m d [c] text))

def copyAll (m : Memory α) (d s : Nat) : Nat → Option (Memory α)
  | 0 => some m
  | n + 1 => do
    let c ← m.load s
    let m ← m.put d c
    copyAll m (d + 1) (s + 1) n

theorem copyAll_eq {s : Nat} (hr : m.Begins s text) (h : m.Open d text.length)
    (ha : s + text.length ≤ d ∨ d + text.length ≤ s) :
    copyAll m d s text.length = some (m.written d text) := by
  induction text generalizing m d s with
  | nil => rw [List.length_nil, copyAll, written_nil]
  | cons c text ih =>
    obtain ⟨hf, hrs⟩ := begins_cons.mp hr
    rw [List.length_cons] at h ha ⊢
    have hk : (m.written d [c]).Begins (s + 1) text := by
      refine hrs.written ?_
      rw [List.length_singleton]
      omega
    rw [copyAll, hf, Option.bind_eq_bind, Option.bind_some, put_eq h.first]
    exact (ih hk (h.rest c) (by omega)).trans (congrArg some (written_append m d [c] text))

end guarded_memory
