-- Walks along a list of labels.
import Mathlib.Data.List.Basic

namespace walks

section
variable {σ ℓ : Type} (step : σ → ℓ → Option σ)

def walk (start : σ) (labels : List ℓ) : Option σ := labels.foldlM step start

def visits : σ → List ℓ → List σ
  | node, [] => [node]
  | node, label :: labels =>
    node :: match step node label with
      | none => []
      | some next => visits next labels

@[simp] theorem walk_nil (node : σ) : walk step node [] = some node := rfl

theorem walk_cons (n : σ) (l : ℓ) (labels : List ℓ) :
    walk step n (l :: labels) = (step n l).bind fun next => walk step next labels := rfl

theorem walk_append (n : σ) (l others : List ℓ) :
    walk step n (l ++ others) = (walk step n l).bind fun next => walk step next others :=
  List.foldlM_append

theorem mem_visits_self (n : σ) (labels : List ℓ) : n ∈ visits step n labels := by
  cases labels with
  | nil => exact List.mem_singleton.mpr rfl
  | cons l labels => exact List.mem_cons_self

end

variable {σ ℓ : Type} {step step' : σ → ℓ → Option σ}

theorem walk_keeps {keep : σ → Prop} (hst : ∀ n l m, keep n → step n l = some m → keep m) {s stop : σ}
    {lb : List ℓ} (hs : keep s) (h : walk step s lb = some stop) : keep stop := by
  induction lb generalizing s with
  | nil => exact Option.some.inj h ▸ hs
  | cons ll lb ih =>
    rw [walk_cons] at h
    obtain ⟨next, hn, hr⟩ := Option.bind_eq_some_iff.mp h
    exact ih (hst s ll next hs hn) hr

theorem walk_mono {keep : σ → Prop} (hst : ∀ n l m, keep n → step n l = some m → keep m)
    (hsm : ∀ n l m, keep n → step n l = some m → step' n l = some m) {s stop : σ} {lb : List ℓ}
    (hs : keep s) (h : walk step s lb = some stop) : walk step' s lb = some stop := by
  induction lb generalizing s with
  | nil => exact h
  | cons ll lb ih =>
    rw [walk_cons] at h ⊢
    obtain ⟨next, hn, hr⟩ := Option.bind_eq_some_iff.mp h
    grind

theorem walk_congr {gone : σ} (hsm : ∀ n l, n ≠ gone → step n l ≠ some gone → step' n l = step n l)
    {s : σ} {labels : List ℓ} (h : gone ∉ visits step s labels) :
    walk step' s labels = walk step s labels := by
  induction labels generalizing s with
  | nil => rfl
  | cons lb labels ih =>
    have hs : s ≠ gone := fun he => h (he ▸ mem_visits_self step s _)
    have hr : ∀ next, step s lb = some next → gone ∉ visits step next labels := by
      intro next hn hm
      refine h (List.mem_cons_of_mem _ ?_)
      rw [hn]
      exact hm
    have hn : step s lb ≠ some gone := fun he => hr gone he (mem_visits_self step gone labels)
    rw [walk_cons, walk_cons, hsm s lb hs hn]
    cases hst : step s lb with
    | none => rfl
    | some next => exact ih (hr next hst)

theorem walk_blocked (keep : σ → Prop) {g : σ} (hst : ∀ n l m, keep n → step n l = some m → keep m)
    (hsm : ∀ n l m, keep n → n ≠ g → m ≠ g → step n l = some m → step' n l = some m)
    (hg : ∀ n l, keep n → n ≠ g → step n l = some g → step' n l = none) {s : σ} {lb : List ℓ}
    (hs : keep s) (hne : s ≠ g) (h : walk step s lb = some g) :
    walk step' s lb = none := by
  induction lb generalizing s with
  | nil => exact absurd (Option.some.inj h) hne
  | cons ll lb ih =>
    rw [walk_cons] at h ⊢
    obtain ⟨next, hn, hr⟩ := Option.bind_eq_some_iff.mp h
    by_cases ht : next = g
    · grind
    grind

end walks
