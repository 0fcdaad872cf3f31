-- Runs of a machine whose step is a function of the state and of an event: what every
-- step keeps holds after every run, and in every state of the run.
import Mathlib.Logic.Function.Basic

namespace runs

variable {S E : Type*} (step : S → E → S)

def run (s : S) (events : List E) : S := events.foldl step s

/-- The property holds in every state of the run, the first and the last one included. -/
def Always (property : S → Prop) (s : S) : List E → Prop
  | [] => property s
  | event :: events => property s ∧ Always property (step s event) events

/-- Every step of the run meets a condition on the state before it. -/
def Each (condition : S → E → Prop) (s : S) : List E → Prop
  | [] => True
  | event :: events => condition s event ∧ Each condition (step s event) events

variable {step}

theorem Always.head {p : S → Prop} {s : S} {e : List E}
    (h : Always step p s e) : p s := by
  cases e with
  | nil => exact h
  | cons event e => exact h.1

theorem run_keeps {i : S → Prop} (hs : ∀ s event, i s → i (step s event))
    {s : S} (h : i s) (e : List E) : i (run step s e) := by
  induction e generalizing s with
  | nil => exact h
  | cons event e ih => exact ih (hs s event h)

theorem always_of_each {i p : S → Prop} {c : S → E → Prop}
    (hs : ∀ s event, i s → c s event → i (step s event))
    (hp : ∀ s, i s → p s) {s : S} (h : i s) {events : List E}
    (he : Each step c s events) : Always step p s events := by
  induction events generalizing s with
  | nil => exact hp s h
  | cons event events ih => exact ⟨hp s h, ih (hs s event h he.1) he.2⟩

theorem each_of_each {i : S → Prop} {c p : S → E → Prop}
    (hs : ∀ s event, i s → c s event → i (step s event))
    (hp : ∀ s event, i s → c s event → p s event) {s : S}
    (h : i s) {events : List E} (he : Each step c s events) :
    Each step p s events := by
  induction events generalizing s with
  | nil => trivial
  | cons event events ih =>
    exact ⟨hp s event h he.1, ih (hs s event h he.1) he.2⟩

theorem always_iff_each (i : S → Prop) {p : S → Prop} {c : S → E → Prop}
    (hs : ∀ s event, i s → c s event → i (step s event))
    (hp : ∀ s, i s → p s)
    (hnd : ∀ s event, i s → p (step s event) → c s event) {s : S}
    (h : i s) (events : List E) :
    Always step p s events ↔ Each step c s events := by
  refine ⟨?_, always_of_each hs hp h⟩
  intro ha
  induction events generalizing s with
  | nil => trivial
  | cons event events ih =>
    have hn := hnd s event h ha.2.head
    exact ⟨hn, ih (hs s event h hn) ha.2⟩

theorem each_of_forall {c : E → Prop} {events : List E}
    (h : ∀ event ∈ events, c event) (s : S) :
    Each step (fun _ event => c event) s events := by
  induction events generalizing s with
  | nil => trivial
  | cons event events ih =>
    exact ⟨h event List.mem_cons_self, ih (fun e he => h e (List.mem_cons_of_mem event he)) _⟩

theorem Each.and {c p : S → E → Prop} {s : S} {events : List E}
    (h1 : Each step c s events) (h2 : Each step p s events) :
    Each step (fun s event => c s event ∧ p s event) s events := by
  induction events generalizing s with
  | nil => trivial
  | cons event events ih => exact ⟨⟨h1.1, h2.1⟩, ih h1.2 h2.2⟩

theorem Each.last {c : S → E → Prop} {s : S} {e : List E} {event : E}
    (h : Each step c s (e ++ [event])) : c (run step s e) event := by
  induction e generalizing s with
  | nil => exact h.1
  | cons first e ih => exact ih h.2

theorem Always.last {p : S → Prop} {s : S} {e : List E}
    (h : Always step p s e) : p (run step s e) := by
  induction e generalizing s with
  | nil => exact h
  | cons event e ih => exact ih h.2

end runs
