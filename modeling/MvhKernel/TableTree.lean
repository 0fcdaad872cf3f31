-- A tree of tables.
import Mathlib.Logic.Basic

namespace table_tree

variable {ι E : Type}

abbrev Tables (ι E : Type) := Nat → ι → E

def Tables.set [DecidableEq ι] (t : Tables ι E) (f : Nat) (i : ι) (e : E) : Tables ι E :=
  fun g j => if g = f ∧ j = i then e else t g j

theorem Tables.set_same [DecidableEq ι] (t : Tables ι E) (f : Nat) (i : ι) (e : E) :
    t.set f i e f i = e := if_pos ⟨rfl, rfl⟩

theorem Tables.set_ne [DecidableEq ι] (t : Tables ι E) {f g : Nat} {i j : ι} (e : E)
    (h : ¬ (g = f ∧ j = i)) : t.set f i e g j = t g j := if_neg h

section
variable (child : Nat → E → Option Nat) (root : Nat)

/-- The table at the end of the path, where `child` says which table an entry of a level leads
to. -/
def tableAt (t : Tables ι E) : List ι → Option Nat
  | [] => some root
  | i :: path => (tableAt t path).bind fun f => child path.length (t f i)

def entryAt (t : Tables ι E) : List ι → Option E
  | [] => none
  | i :: path => (tableAt child root t path).map fun f => t f i

def Uses (t : Tables ι E) (f : Nat) : Prop := ∃ path, tableAt child root t path = some f

def Unshared (t : Tables ι E) : Prop :=
  ∀ path other f, tableAt child root t path = some f → tableAt child root t other = some f →
    path = other

end

variable {child : Nat → E → Option Nat} {root : Nat} {t t' : Tables ι E}

theorem tableAt_cons {f : Nat} {path : List ι} (h : tableAt child root t path = some f) (i : ι) :
    tableAt child root t (i :: path) = child path.length (t f i) := by
  rw [tableAt, h, Option.bind_some]

theorem tableAt_above {g : Nat} {i : ι} {path : List ι}
    (h : tableAt child root t (i :: path) = some g) :
    ∃ f, tableAt child root t path = some f ∧ child path.length (t f i) = some g :=
  Option.bind_eq_some_iff.mp h

theorem entryAt_cons {f : Nat} {path : List ι} (h : tableAt child root t path = some f) (i : ι) :
    entryAt child root t (i :: path) = some (t f i) := by
  rw [entryAt, h, Option.map_some]

theorem entryAt_below {path : List ι} (h : tableAt child root t path.tail = none) :
    entryAt child root t path = none := by
  cases path with
  | nil => rfl
  | cons i path => rw [entryAt, show tableAt child root t path = none from h, Option.map_none]

/-! ## A change outside the tree -/

theorem tableAt_congr (h : ∀ f, Uses child root t f → ∀ i, t' f i = t f i) (path : List ι) :
    tableAt child root t' path = tableAt child root t path := by
  induction path with
  | nil => rfl
  | cons i path ih =>
    rw [tableAt, tableAt, ih]
    cases hf : tableAt child root t path with
    | none => rfl
    | some f => rw [Option.bind_some, Option.bind_some, h f ⟨path, hf⟩ i]

theorem entryAt_congr (h : ∀ f, Uses child root t f → ∀ i, t' f i = t f i) (path : List ι) :
    entryAt child root t' path = entryAt child root t path := by
  cases path with
  | nil => rfl
  | cons i path =>
    rw [entryAt, entryAt, tableAt_congr h]
    cases hf : tableAt child root t path with
    | none => rfl
    | some f => rw [Option.map_some, Option.map_some, h f ⟨path, hf⟩ i]

theorem uses_congr (h : ∀ f, Uses child root t f → ∀ i, t' f i = t f i) (f : Nat) :
    Uses child root t' f ↔ Uses child root t f := by
  unfold Uses
  simp only [tableAt_congr h]

theorem Unshared.congr (hone : Unshared child root t)
    (h : ∀ f, Uses child root t f → ∀ i, t' f i = t f i) : Unshared child root t' := by
  intro path o f
  rw [tableAt_congr h, tableAt_congr h]
  exact hone path o f

/-! ## A change of one entry -/

section
variable [DecidableEq ι] {f : Nat} {i : ι} {e : E} {path : List ι}
variable (hone : Unshared child root t) (hf : tableAt child root t path = some f)
include hone hf

omit [DecidableEq ι] in
theorem at_changed {o : List ι} {g : Nat} {j : ι} (hg : tableAt child root t o = some g) :
    (g = f ∧ j = i) ↔ j :: o = i :: path := by
  constructor
  · rintro ⟨rfl, rfl⟩
    rw [hone o path g hg hf]
  grind

omit [DecidableEq ι] hone in
theorem not_changed {o : List ι} {j : ι} (hg : tableAt child root t o = none) :
    j :: o ≠ i :: path := by
  intro heq
  grind

theorem map_set (j : ι) (o : List ι) :
    ((tableAt child root t o).map fun g => t.set f i e g j) =
      if j :: o = i :: path then some e else entryAt child root t (j :: o) := by
  rw [entryAt]
  cases hg : tableAt child root t o with
  | none =>
    rw [if_neg (not_changed hf hg)]
    rfl
  | some g =>
    rw [Option.map_some, Option.map_some, ← apply_ite some]
    simp only [← at_changed hone hf hg]
    rfl

theorem tableAt_set_plain (hold : child path.length (t f i) = none)
    (hnew : child path.length e = none) (other : List ι) :
    tableAt child root (t.set f i e) other = tableAt child root t other := by
  induction other with
  | nil => rfl
  | cons j other ih =>
    rw [tableAt, tableAt, ih]
    cases hg : tableAt child root t other with
    | none => rfl
    | some g =>
      rw [Option.bind_some, Option.bind_some]
      by_cases hat : g = f ∧ j = i
      · have hp := (List.cons.inj ((at_changed hone hf hg).mp hat)).2
        obtain ⟨rfl, rfl⟩ := hat
        rw [Tables.set_same, hp, hold, hnew]
      · rw [Tables.set_ne t e hat]

theorem entryAt_set_plain (hold : child path.length (t f i) = none)
    (hnew : child path.length e = none) (other : List ι) :
    entryAt child root (t.set f i e) other =
      if other = i :: path then some e else entryAt child root t other := by
  cases other with
  | nil => rfl
  | cons j other =>
    rw [entryAt, tableAt_set_plain hone hf hold hnew]
    exact map_set hone hf j other

theorem uses_set_plain (hold : child path.length (t f i) = none)
    (hnew : child path.length e = none) (g : Nat) :
    Uses child root (t.set f i e) g ↔ Uses child root t g := by
  unfold Uses
  simp only [tableAt_set_plain hone hf hold hnew]

theorem Unshared.set_plain (hold : child path.length (t f i) = none)
    (hnew : child path.length e = none) : Unshared child root (t.set f i e) := by
  intro one o g
  rw [tableAt_set_plain hone hf hold hnew, tableAt_set_plain hone hf hold hnew]
  exact hone one o g

/-! ## A new table

The entry led nowhere and now leads to a table from outside the tree, none of whose entries leads
anywhere. -/

variable {g : Nat} (hold : child path.length (t f i) = none)
variable (hnew : child path.length e = some g) (hfresh : ¬ Uses child root t g)
variable (hlast : ∀ j, child (path.length + 1) (t g j) = none)
include hold hnew hfresh hlast

theorem tableAt_link (other : List ι) :
    tableAt child root (t.set f i e) other =
      if other = i :: path then some g else tableAt child root t other := by
  induction other with
  | nil => rfl
  | cons j other ih =>
    have hgf : g ≠ f := fun h => hfresh ⟨path, h ▸ hf⟩
    rw [tableAt, ih]
    by_cases hb : other = i :: path
    · have hl : j :: i :: path ≠ i :: path := by simp
      rw [if_pos hb, Option.bind_some, Tables.set_ne t e (fun h => hgf h.1), hb,
        if_neg hl, List.length_cons, hlast, tableAt, tableAt_cons hf, hold, Option.bind_none]
    · rw [if_neg hb, tableAt]
      cases hg : tableAt child root t other with
      | none =>
        rw [if_neg (not_changed hf hg)]
        rfl
      | some k =>
        rw [Option.bind_some, Option.bind_some]
        by_cases hat : k = f ∧ j = i
        · have hh := (at_changed hone hf hg).mp hat
          grind [Tables.set_same, List.cons.inj]
        grind [Tables.set_ne]

theorem entryAt_link (other : List ι) :
    entryAt child root (t.set f i e) other =
      if other = i :: path then some e
      else if other.tail = i :: path then other.head?.map (t g) else entryAt child root t other := by
  cases other with
  | nil => rfl
  | cons j other =>
    have hgf : g ≠ f := fun h => hfresh ⟨path, h ▸ hf⟩
    rw [entryAt, tableAt_link hone hf hold hnew hfresh hlast, List.tail_cons]
    by_cases hb : other = i :: path
    · have hl : j :: i :: path ≠ i :: path := by simp
      grind [Option.map_some, Tables.set_ne]
    simpa [hb] using map_set hone hf j other

theorem uses_link {k : Nat} (h : Uses child root (t.set f i e) k) :
    Uses child root t k ∨ k = g := by
  obtain ⟨o, ho⟩ := h
  rw [tableAt_link hone hf hold hnew hfresh hlast] at ho
  split at ho
  · exact Or.inr (Option.some.inj ho).symm
  · exact Or.inl ⟨o, ho⟩

theorem Unshared.link : Unshared child root (t.set f i e) := by
  intro one o k
  rw [tableAt_link hone hf hold hnew hfresh hlast, tableAt_link hone hf hold hnew hfresh hlast]
  split <;> split
  · grind
  · rintro ⟨⟩ h
    exact absurd ⟨o, h⟩ hfresh
  · rintro h ⟨⟩
    exact absurd ⟨one, h⟩ hfresh
  · exact hone one o k

end

end table_tree
