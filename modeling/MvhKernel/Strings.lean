-- The string functions of the utilities (`util.c`) on memory with guarded places:
-- lengths, searches and bounded copies.
import MvhKernel.GuardedMemory
import MvhKernel.Parsers

open guarded_memory Memory

namespace mvh.util

/-! ## The functions -/

/-- `length` counts up to the NUL. -/
def lengthLoop (m : Memory Int8) (stop : Option Nat) : Nat → Nat → Option Nat
  | 0, _ => stop
  | limit + 1, a => do
    let character ← m.load a
    if character = 0 then some 0
    else do
      let length ← lengthLoop m stop limit (a + 1)
      some (length + 1)

def mvh_str_length (m : Memory Int8) (text : Nat) : Option Nat :=
  if text = 0 then some 0 else lengthLoop m none (2 ^ 64) text

def mvh_str_nlength (m : Memory Int8) (text limit : Nat) : Option Nat :=
  if text = 0 then some 0 else lengthLoop m (some 0) limit text

def mvh_str_ncopy (m : Memory Int8) (destination capacity source source_limit : Nat) :
    Option (Nat × Memory Int8) := do
  let length ← mvh_str_nlength m source source_limit
  let copy := if capacity = 0 then 0 else min length (capacity - 1)
  if destination = 0 ∨ capacity = 0 then some (length, m)
  else do
    let m ← copyAll m destination source copy
    let m ← m.put (destination + copy) 0
    some (length, m)

def mvh_str_copy (m : Memory Int8) (destination capacity source : Nat) : Option (Nat × Memory Int8) :=
  mvh_str_ncopy m destination capacity source MVH_U64_MAX.toNat

def findLoop (m : Memory Int8) (character : Int8) : Nat → Nat → Option Nat
  | 0, _ => none
  | fuel + 1, text => do
    let here ← m.load text
    if here = character then some text
    else if here ≠ 0 then findLoop m character fuel (text + 1)
    else some 0

def mvh_str_find_char (m : Memory Int8) (text : Nat) (character : Int8) : Option Nat :=
  if text = 0 then some 0 else findLoop m character (2 ^ 64) text

/-! ## Texts -/

/-- A text that ends with a NUL can be read at the address. -/
structure Spelled (m : Memory Int8) (a : Nat) (text : Text) : Prop where
  begins : m.Begins a (text ++ [0])
  clean : 0 ∉ text
  given : a ≠ 0
  fits : a + text.length < 2 ^ 64

def Stored (m : Memory Int8) (a : Nat) (text : Text) : Prop :=
  ∀ i c, (text ++ [0])[i]? = some c → m.cells (a + i) = c

variable {m : Memory Int8} {a : Nat} {text more : Text}

theorem Spelled.rest (h : Spelled m a (text ++ more)) : Spelled m (a + text.length) more where
  begins := by
    have ha := h.begins
    rw [List.append_assoc] at ha
    exact ha.right
  clean hmem := h.clean (List.mem_append_right _ hmem)
  given hzero := h.given (by omega)
  fits := by
    have hf := h.fits
    grind

theorem Spelled.written (h : Spelled m a text) {d : Nat} {o : Text}
    (ha : a + text.length < d ∨ d + o.length ≤ a) : Spelled (m.written d o) a text where
  begins := h.begins.written (by rw [List.length_append, List.length_singleton]; omega)
  clean := h.clean
  given := h.given
  fits := h.fits

/-! ## Lengths -/

theorem lengthLoop_eq {s : Option Nat} {l : Nat} (hb : m.Begins a (text ++ [0])) (hcl : 0 ∉ text)
    (h : text.length < l ∨ s = some 0) : lengthLoop m s l a = some (min text.length l) := by
  induction text generalizing a l with
  | nil =>
    cases l with
    | zero => exact h.resolve_left (Nat.not_lt_zero _)
    | succ l =>
      rw [lengthLoop, (begins_cons.mp hb).1, List.length_nil, Nat.zero_min]
      rfl
  | cons c text ih =>
    cases l with
    | zero => exact h.resolve_left (Nat.not_lt_zero _)
    | succ l =>
      obtain ⟨hf, hr⟩ := begins_cons.mp hb
      have hc : c ≠ 0 := by grind
      rw [lengthLoop, hf, Option.bind_eq_bind, Option.bind_some, if_neg hc,
        ih hr (fun hm => hcl (List.mem_cons_of_mem c hm)) (h.imp_left Nat.lt_of_succ_lt_succ),
        List.length_cons, Nat.succ_min_succ]
      rfl

theorem length_eq (h : Spelled m a text) : mvh_str_length m a = some text.length := by
  have hf := h.fits
  unfold mvh_str_length
  rw [if_neg h.given, lengthLoop_eq h.begins h.clean (.inl (by omega)), Nat.min_eq_left (by omega)]

theorem nlength_eq (h : Spelled m a text) (l : Nat) :
    mvh_str_nlength m a l = some (min text.length l) := by
  unfold mvh_str_nlength
  rw [if_neg h.given, lengthLoop_eq h.begins h.clean (.inr rfl)]

/-! ## Copies -/

theorem ncopy_eq {d c : Nat} (l : Nat) (h : Spelled m a text) (hg : d ≠ 0) (hc : 0 < c)
    (ho : m.Open d c) (hap : a + text.length < d ∨ d + c ≤ a) :
    mvh_str_ncopy m d c a l =
      some (min text.length l, m.written d (text.take (min l (c - 1)) ++ [0])) := by
  have hcp : min (min text.length l) (c - 1) = (text.take (min l (c - 1))).length := by
    rw [List.length_take]
    omega
  have hr : m.Begins a (text.take (min l (c - 1))) := by
    have ha := h.begins.left
    rw [← List.take_append_drop (min l (c - 1)) text] at ha
    exact ha.left
  generalize text.take (min l (c - 1)) = copy at hcp hr
  unfold mvh_str_ncopy
  rw [nlength_eq h, Option.bind_eq_bind, Option.bind_some]
  simp only
  rw [if_neg (Nat.ne_of_gt hc), if_neg (not_or.mpr ⟨hg, Nat.ne_of_gt hc⟩), hcp,
    copyAll_eq hr (fun i hi => ho i (by omega)) (by omega)]
  have hl : (m.written d copy).writable (d + copy.length) = true := ho _ (by omega)
  grind [put_eq, written_append]

theorem stored_written (m : Memory Int8) (d : Nat) (text : Text) : Stored (m.written d (text ++ [0])) d text :=
  fun _ _ hi => written_inside hi

/-! ## Searches -/

theorem findLoop_eq (ch : Int8) {f : Nat} (hb : m.Begins a (text ++ [0])) (hcl : 0 ∉ text)
    (hfl : text.length < f) :
    findLoop m ch f a =
      some (if ch ∈ text ++ [0] then a + (text ++ [0]).idxOf ch else 0) := by
  induction text generalizing a f with
  | nil =>
    obtain ⟨f, rfl⟩ := Nat.exists_eq_add_one_of_ne_zero (Nat.ne_of_gt hfl)
    rw [findLoop, (begins_cons.mp hb).1, Option.bind_eq_bind, Option.bind_some, List.nil_append]
    grind
  | cons c text ih =>
    obtain ⟨f, rfl⟩ := Nat.exists_eq_add_one_of_ne_zero (Nat.ne_of_gt (Nat.zero_lt_of_lt hfl))
    obtain ⟨hfr, hr⟩ := begins_cons.mp hb
    have hc : c ≠ 0 := by grind
    rw [findLoop, hfr, Option.bind_eq_bind, Option.bind_some, List.cons_append]
    by_cases hf : c = ch
    · simp [hf, List.idxOf_cons_self]
    · rw [if_neg hf, if_pos hc,
        ih hr (fun hm => hcl (List.mem_cons_of_mem c hm)) (Nat.lt_of_succ_lt_succ hfl),
        List.idxOf_cons_ne _ hf, Nat.add_right_comm, Nat.add_assoc]
      grind

theorem find_char_eq (h : Spelled m a text) (c : Int8) :
    mvh_str_find_char m a c =
      some (if c ∈ text ++ [0] then a + (text ++ [0]).idxOf c else 0) := by
  have hf := h.fits
  unfold mvh_str_find_char
  rw [if_neg h.given, findLoop_eq c h.begins h.clean (by omega)]

end mvh.util
