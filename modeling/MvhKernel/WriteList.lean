-- Lists of writes to a store, and what is left of such a list when one write fails or the
-- power goes.
import Mathlib

namespace write_list

variable {κ ν : Type} [DecidableEq κ]

/-! ## A list of writes, applied in order -/

def apply (d : κ → ν) (ws : List (κ × ν)) : κ → ν :=
  ws.foldl (fun d w => Function.update d w.1 w.2) d

@[simp] theorem apply_nil (d : κ → ν) : apply d [] = d := rfl

@[simp] theorem apply_cons (d : κ → ν) (w : κ × ν) (ws : List (κ × ν)) :
    apply d (w :: ws) = apply (Function.update d w.1 w.2) ws := rfl

theorem apply_append (d : κ → ν) (ws vs : List (κ × ν)) :
    apply d (ws ++ vs) = apply (apply d ws) vs := by
  simp [apply, List.foldl_append]

theorem apply_of_not_mem (d : κ → ν) (ws : List (κ × ν)) {k : κ} (h : ∀ w ∈ ws, w.1 ≠ k) :
    apply d ws k = d k := by
  induction ws generalizing d with
  | nil => rfl
  | cons w ws ih =>
    rw [apply_cons, ih _ fun v hv => h v (List.mem_cons_of_mem _ hv)]
    grind

theorem apply_of_mem (d : κ → ν) (ws : List (κ × ν)) (hn : (ws.map Prod.fst).Nodup) {k : κ} {v : ν}
    (h : (k, v) ∈ ws) : apply d ws k = v := by
  induction ws generalizing d with
  | nil => simp at h
  | cons w ws ih =>
    rw [List.map_cons, List.nodup_cons] at hn
    rcases List.mem_cons.mp h with rfl | h
    · rw [apply_cons, apply_of_not_mem]
      · simp
      · grind
    · exact ih _ hn.2 h

theorem apply_agree {d d' : κ → ν} (ws : List (κ × ν)) {k : κ} (h : d k = d' k) :
    apply d ws k = apply d' ws k := by
  induction ws generalizing d d' with
  | nil => exact h
  | cons w ws ih =>
    apply ih
    grind

theorem apply_agree_of_mem (d d' : κ → ν) (ws : List (κ × ν)) {k : κ} (h : k ∈ ws.map Prod.fst) :
    apply d ws k = apply d' ws k := by
  induction ws generalizing d d' with
  | nil => simp at h
  | cons w ws ih =>
    rw [apply_cons, apply_cons]
    grind [List.map_cons, List.mem_cons, apply_agree]

theorem apply_of_forall (d : κ → ν) (ws : List (κ × ν)) {k : κ} {v : ν} (h : k ∈ ws.map Prod.fst)
    (hv : ∀ w ∈ ws, w.1 = k → w.2 = v) : apply d ws k = v := by
  induction ws generalizing d with
  | nil => simp at h
  | cons w ws ih =>
    have hr := fun u hu => hv u (List.mem_cons_of_mem w hu)
    rw [apply_cons]
    by_cases hm : k ∈ ws.map Prod.fst
    · exact ih _ hm hr
    · rw [List.map_cons, List.mem_cons] at h
      have hk := h.resolve_right hm
      grind [apply_of_not_mem, Function.update_self]

theorem apply_keeps {P : κ → ν → Prop} {d : κ → ν} {ws : List (κ × ν)} (hd : ∀ k, P k (d k))
    (hw : ∀ w ∈ ws, P w.1 w.2) (k : κ) : P k (apply d ws k) := by
  induction ws generalizing d with
  | nil => exact hd k
  | cons w ws ih =>
    rw [apply_cons]
    grind

/-! ## What comes of each write -/

/-- A write is done, or it fails and changes nothing, or the power is cut before it. -/
inductive Outcome
  | done
  | fail
  | cut
  deriving DecidableEq, Repr

/-- How many of `n` writes a plan lets through. -/
def played : List Outcome → Nat → Nat
  | _, 0 => 0
  | [], n + 1 => n + 1
  | .done :: plan, n + 1 => played plan n + 1
  | .fail :: _, _ + 1 => 0
  | .cut :: _, _ + 1 => 0

def ending : List Outcome → Nat → Outcome
  | _, 0 => .done
  | [], _ + 1 => .done
  | .done :: plan, n + 1 => ending plan n
  | .fail :: _, _ + 1 => .fail
  | .cut :: _, _ + 1 => .cut

def planAfter : List Outcome → Nat → List Outcome
  | plan, 0 => plan
  | [], _ + 1 => []
  | .done :: plan, n + 1 => planAfter plan n
  | .fail :: plan, _ + 1 => plan
  | .cut :: plan, _ + 1 => plan

theorem played_le (p : List Outcome) (n : Nat) : played p n ≤ n := by
  induction n generalizing p with
  | zero => simp [played]
  | succ n ih =>
    rcases p with _ | ⟨o, p⟩
    · simp [played]
    · cases o
      · simpa [played] using ih p
      · simp [played]
      · simp [played]

theorem ending_done_iff (p : List Outcome) (n : Nat) :
    ending p n = .done ↔ played p n = n := by
  induction n generalizing p with
  | zero => simp [played, ending]
  | succ n ih =>
    rcases p with _ | ⟨o, p⟩
    · simp [played, ending]
    · cases o
      · simpa [played, ending] using ih p
      · simp [played, ending]
      · simp [played, ending]

theorem played_nil (n : Nat) : played [] n = n := by
  cases n <;> rfl

theorem ending_nil (n : Nat) : ending [] n = .done := by
  cases n <;> rfl

theorem ending_ne_fail {p : List Outcome} (h : Outcome.fail ∉ p) (n : Nat) :
    ending p n ≠ .fail := by
  induction n generalizing p with
  | zero => simp [ending]
  | succ n ih =>
    rcases p with _ | ⟨o, p⟩
    · simp [ending]
    · rw [List.mem_cons, not_or] at h
      cases o
      · exact ih h.2
      · exact absurd rfl h.1
      · simp [ending]

theorem planAfter_nil (n : Nat) : planAfter [] n = [] := by
  cases n <;> rfl

theorem plan_fails {k n : Nat} (h : k < n) :
    played (List.replicate k .done ++ [.fail]) n = k ∧
      ending (List.replicate k .done ++ [.fail]) n = .fail ∧
      planAfter (List.replicate k .done ++ [.fail]) n = [] := by
  induction k generalizing n with
  | zero =>
    obtain ⟨n, rfl⟩ := Nat.exists_eq_add_one_of_ne_zero (Nat.ne_of_gt h)
    exact ⟨rfl, rfl, rfl⟩
  | succ k ih =>
    obtain ⟨n, rfl⟩ := Nat.exists_eq_add_one_of_ne_zero (Nat.ne_of_gt (Nat.zero_lt_of_lt h))
    obtain ⟨hp, he, ha⟩ := ih (Nat.lt_of_succ_lt_succ h)
    rw [List.replicate_succ, List.cons_append]
    exact ⟨congrArg (· + 1) hp, he, ha⟩

theorem plan_keeps_failure {k n : Nat} (h : n ≤ k) :
    Outcome.fail ∈ planAfter (List.replicate k .done ++ [.fail]) n := by
  induction n generalizing k with
  | zero => simp [planAfter]
  | succ n ih =>
    obtain ⟨k, rfl⟩ := Nat.exists_eq_add_one_of_ne_zero (Nat.ne_of_gt (Nat.zero_lt_of_lt h))
    rw [List.replicate_succ, List.cons_append]
    exact ih (Nat.le_of_succ_le_succ h)

end write_list
