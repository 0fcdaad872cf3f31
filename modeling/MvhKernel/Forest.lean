-- Trees that are held as parent links.
import Mathlib.Logic.Function.Iterate
import Mathlib.Logic.Function.Basic
import Mathlib.Data.Fintype.Card

namespace forest

variable {α : Type*} {root : α} {parent parent' : α → α} {used used' : α → Prop}

def Reaches (root : α) (parent : α → α) (i : α) : Prop := ∃ k, parent^[k] i = root

/-- The nodes in use are a tree below the root. -/
structure Rooted (root : α) (parent : α → α) (used : α → Prop) : Prop where
  root_used : used root
  root_parent : parent root = root
  closed : ∀ i, used i → used (parent i)
  reaches : ∀ i, used i → Reaches root parent i

theorem iterate_eq (hc : ∀ i, used i → used (parent i)) (hs : ∀ i, used i → parent' i = parent i)
    (k : Nat) {i : α} (hi : used i) : parent'^[k] i = parent^[k] i := by
  induction k generalizing i with
  | zero => rfl
  | succ k ih => grind [Function.iterate_succ_apply]

theorem Reaches.step {i : α} (h : Reaches root parent (parent i)) : Reaches root parent i := by
  obtain ⟨k, hk⟩ := h
  exact ⟨k + 1, by rw [Function.iterate_succ_apply, hk]⟩

namespace Rooted

theorem reaches_of_same (h : Rooted root parent used) (hs : ∀ i, used i → parent' i = parent i) {i : α}
    (hi : used i) : Reaches root parent' i := by
  obtain ⟨k, hk⟩ := h.reaches i hi
  exact ⟨k, by rw [iterate_eq h.closed hs k hi, hk]⟩

theorem insert (h : Rooted root parent used) {i p : α} (hi : ¬ used i) (hp : used p)
    (hpr : parent' i = p) (hu : ∀ j, used' j ↔ used j ∨ j = i)
    (hs : ∀ j, used j → parent' j = parent j) : Rooted root parent' used' where
  root_used := (hu root).mpr (Or.inl h.root_used)
  root_parent := by rw [hs root h.root_used, h.root_parent]
  closed := by
    intro j hj
    rcases (hu j).mp hj with hold | rfl
    · rw [hs j hold]
      exact (hu _).mpr (Or.inl (h.closed j hold))
    grind
  reaches := by
    intro j hj
    rcases (hu j).mp hj with hold | rfl
    · exact h.reaches_of_same hs hold
    · apply Reaches.step
      rw [hpr]
      exact h.reaches_of_same hs hp

theorem erase (h : Rooted root parent used) {i : α} (hr : i ≠ root)
    (hl : ∀ j, used j → j ≠ i → parent j ≠ i) (hu : ∀ j, used' j ↔ used j ∧ j ≠ i) :
    Rooted root parent used' where
  root_used := (hu root).mpr ⟨h.root_used, hr.symm⟩
  root_parent := h.root_parent
  closed := by
    intro j hj
    obtain ⟨hold, hne⟩ := (hu j).mp hj
    exact (hu _).mpr ⟨h.closed j hold, hl j hold hne⟩
  reaches := fun j hj => h.reaches j ((hu j).mp hj).1

end Rooted

/-! ## The way down -/

/-- The nodes on the way from the root down to the node, without the root. -/
inductive Way (root : α) (parent : α → α) : α → List α → Prop
  | root : Way root parent root []
  | down {i : α} {above : List α} : i ≠ root → Way root parent (parent i) above → Way root parent i (above ++ [i])

theorem Reaches.way {i : α} (h : Reaches root parent i) : ∃ nodes, Way root parent i nodes := by
  obtain ⟨k, hk⟩ := h
  induction k generalizing i with
  | zero =>
    obtain rfl : i = root := hk
    exact ⟨[], .root⟩
  | succ k ih =>
    by_cases hr : i = root
    · rw [hr]
      exact ⟨[], .root⟩
    · obtain ⟨above, ha⟩ := ih hk
      exact ⟨above ++ [i], .down hr ha⟩

namespace Way

variable {i j : α} {nodes nodes' : List α}

theorem unique (h : Way root parent i nodes) (h' : Way root parent i nodes') : nodes = nodes' := by
  induction h generalizing nodes' with
  | root =>
    cases h' with
    | root => rfl
    | down hne _ => exact absurd rfl hne
  | down hne _ ih =>
    cases h' with
    | root => exact absurd rfl hne
    | down _ ha => rw [ih ha]

theorem ne_root (h : Way root parent i nodes) (hj : j ∈ nodes) : j ≠ root := by
  induction h with
  | root => exact absurd hj List.not_mem_nil
  | down hne _ ih => grind

theorem of_mem (h : Way root parent i nodes) (hj : j ∈ nodes) :
    ∃ part, Way root parent j part ∧ part.length ≤ nodes.length := by
  induction h with
  | root => exact absurd hj List.not_mem_nil
  | @down i above hne ha ih =>
    rcases List.mem_append.mp hj with hj | hj
    · grind
    · rw [List.mem_singleton.mp hj]
      exact ⟨above ++ [i], .down hne ha, Nat.le_refl _⟩

theorem nodup (h : Way root parent i nodes) : nodes.Nodup := by
  induction h with
  | root => exact List.nodup_nil
  | @down i above hne ha ih =>
    refine List.Nodup.append ih (List.nodup_singleton i) (List.disjoint_singleton.mpr fun hm => ?_)
    -- A second time at the node would be a shorter way to it.
    obtain ⟨part, hp, hle⟩ := ha.of_mem hm
    rw [(Way.down hne ha).unique hp |>.symm, List.length_append, List.length_singleton] at hle
    omega

theorem length_lt [Fintype α] (h : Way root parent i nodes) : nodes.length < Fintype.card α := by
  have hn : (root :: nodes).Nodup := List.nodup_cons.mpr ⟨fun hm => h.ne_root hm rfl, h.nodup⟩
  exact hn.length_le_card

end Way

end forest
