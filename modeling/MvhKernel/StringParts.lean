-- Splitting a text at a character and joining texts (`util.c`).
import MvhKernel.Strings

open guarded_memory Memory

namespace mvh.util

/-! ## The functions -/

def storeParts (m : Memory Int8) (text left_length left left_capacity right right_capacity split : Nat) :
    Option (Int × Memory Int8) := do
  let right_length ← mvh_str_length m (split + 1)
  if right_length ≥ right_capacity then some (-1, m)
  else do
    let (_, m) ← mvh_str_ncopy m left left_capacity text left_length
    let (_, m) ← mvh_str_copy m right right_capacity (split + 1)
    some (0, m)

def mvh_str_split_once (m : Memory Int8) (text : Nat) (separator : Int8)
    (left left_capacity right right_capacity : Nat) : Option (Int × Memory Int8) := do
  let split ← mvh_str_find_char m text separator
  if text = 0 ∨ split = 0 ∨ left = 0 ∨ right = 0 ∨ left_capacity = 0 ∨ right_capacity = 0 then some (-1, m)
  else
    let left_length := split - text
    if left_length ≥ left_capacity then some (-1, m)
    else storeParts m text left_length left left_capacity right right_capacity split

def mvh_str_concat (m : Memory Int8) (destination capacity source : Nat) : Option (UInt64 × Memory Int8) := do
  let before ← mvh_str_nlength m destination capacity
  let suffix ← mvh_str_length m source
  if destination = 0 ∨ capacity = 0 ∨ before = capacity then some (UInt64.ofNat (before + suffix), m)
  else do
    let copy := min suffix (capacity - before - 1)
    let m ← copyAll m (destination + before) source copy
    let m ← m.put (destination + before + copy) 0
    some (UInt64.ofNat (before + suffix), m)

def mvh_str_join (m : Memory Int8) (destination capacity left separator right : Nat) :
    Option (UInt64 × Memory Int8) := do
  let left_length ← mvh_str_length m left
  let separator_length ← mvh_str_length m separator
  let right_length ← mvh_str_length m right
  let required := UInt64.ofNat (left_length + separator_length + right_length)
  if destination = 0 ∨ capacity = 0 then some (required, m)
  else do
    let m ← m.put destination 0
    let (_, m) ← mvh_str_concat m destination capacity left
    let (_, m) ← mvh_str_concat m destination capacity separator
    let (_, m) ← mvh_str_concat m destination capacity right
    some (required, m)

/-! ## Splits -/

section
variable {m : Memory Int8} {a : Nat} {text : Text} {separator : Int8}
  {left left_capacity right right_capacity : Nat}

/-- A call with a text and two buffers. -/
structure SplitCall (m : Memory Int8) (a : Nat) (text : Text)
    (left left_capacity right right_capacity : Nat) : Prop where
  spelled : Spelled m a text
  reads : ∀ x, m.readable x = true ↔ a ≤ x ∧ x ≤ a + text.length
  writes : ∀ x, m.writable x = true ↔
    (left ≤ x ∧ x < left + left_capacity) ∨ (right ≤ x ∧ x < right + right_capacity)
  left_given : left ≠ 0
  right_given : right ≠ 0
  left_apart : a + text.length < left ∨ left + left_capacity ≤ a
  right_apart : a + text.length < right ∨ right + right_capacity ≤ a

/-- What a split should do. -/
structure Splits (m : Memory Int8) (text : Text) (separator : Int8)
    (left left_capacity right right_capacity : Nat) (outcome : Option (Int × Memory Int8)) : Prop where
  absent : separator ∉ text → outcome = some (-1, m)
  no_room : ∀ first second, text = first ++ separator :: second → separator ∉ first →
    ¬ (first.length < left_capacity ∧ second.length < right_capacity) → outcome = some (-1, m)
  parts : ∀ first second, text = first ++ separator :: second → separator ∉ first →
    first.length < left_capacity → second.length < right_capacity →
      ∃ m', outcome = some (0, m') ∧
        (left + left_capacity ≤ right ∨ right + right_capacity ≤ left →
          Stored m' left first ∧ Stored m' right second)

theorem SplitCall.left_open (c : SplitCall m a text left left_capacity right right_capacity) :
    m.Open left left_capacity :=
  fun i hi => (c.writes _).mpr (.inl ⟨by omega, by omega⟩)

theorem SplitCall.right_open (c : SplitCall m a text left left_capacity right right_capacity) :
    m.Open right right_capacity :=
  fun i hi => (c.writes _).mpr (.inr ⟨by omega, by omega⟩)

theorem split_found (c : SplitCall m a text left left_capacity right right_capacity) {n : Nat}
    (hf : mvh_str_find_char m a separator = some (a + n)) :
    mvh_str_split_once m a separator left left_capacity right right_capacity =
      if left_capacity ≤ n ∨ right_capacity = 0 then some (-1, m)
      else storeParts m a n left left_capacity right right_capacity (a + n) := by
  have hg := c.spelled.given
  have hl := c.left_given
  have hr := c.right_given
  unfold mvh_str_split_once
  grind

theorem storeParts_eq {first second : Text}
    (c : SplitCall m a (first ++ separator :: second) left left_capacity right right_capacity)
    (hfr : first.length < left_capacity) (hrg : 0 < right_capacity) :
    storeParts m a first.length left left_capacity right right_capacity (a + first.length) =
      if second.length < right_capacity then
        some (0, (m.written left (first ++ [0])).written right (second ++ [0]))
      else some (-1, m) := by
  have ha := c.spelled
  have hln : (first ++ separator :: second).length = first.length + (second.length + 1) := List.length_append
  have hl := c.left_apart
  have hr := c.right_apart
  have hf := ha.fits
  rw [hln] at hl hr hf
  have hs : Spelled m (a + first.length + 1) second := by
    rw [List.append_cons] at ha
    have hrs := ha.rest
    grind
  unfold storeParts
  rw [length_eq hs, Option.bind_eq_bind, Option.bind_some]
  by_cases hrm : second.length < right_capacity
  · rw [if_neg (Nat.not_le.mpr hrm), if_pos hrm,
      ncopy_eq first.length ha c.left_given (by omega) c.left_open c.left_apart,
      Nat.min_eq_left (by omega : first.length ≤ left_capacity - 1), List.take_left]
    have hk : Spelled (m.written left (first ++ [0])) (a + first.length + 1) second := by
      refine hs.written ?_
      grind
    have ht : second.take (min MVH_U64_MAX.toNat (right_capacity - 1)) = second := by
      grind [List.take_of_length_le]
    show (mvh_str_copy (m.written left (first ++ [0])) right right_capacity (a + first.length + 1)).bind _ = _
    unfold mvh_str_copy
    rw [ncopy_eq _ hk c.right_given hrg c.right_open (by omega), ht]
    rfl
  · rw [if_pos (Nat.not_lt.mp hrm), if_neg hrm]

theorem splits_of_ne_zero (cl : SplitCall m a text left left_capacity right right_capacity)
    (hsp : separator ≠ 0) :
    Splits m text separator left left_capacity right right_capacity
      (mvh_str_split_once m a separator left left_capacity right right_capacity) := by
  have hfn := find_char_eq cl.spelled separator
  have hm : separator ∈ text ++ [0] ↔ separator ∈ text := by grind
  have hs : ∀ first s, text = first ++ separator :: s → separator ∉ first →
      mvh_str_split_once m a separator left left_capacity right right_capacity =
        if left_capacity ≤ first.length ∨ right_capacity = 0 then some (-1, m)
        else storeParts m a first.length left left_capacity right right_capacity (a + first.length) := by
    rintro first s rfl hf
    rw [if_pos (hm.mpr (by simp)), List.append_assoc, List.idxOf_append_of_notMem hf, List.cons_append,
      List.idxOf_cons_self, Nat.add_zero] at hfn
    exact split_found cl hfn
  refine ⟨?_, ?_, ?_⟩
  · grind [mvh_str_split_once]
  · intro first s ht hf hrm
    rw [hs first s ht hf]
    subst ht
    by_cases hg : left_capacity ≤ first.length ∨ right_capacity = 0
    · rw [if_pos hg]
    · rw [if_neg hg, storeParts_eq cl (by omega) (by omega), if_neg (by omega)]
  · intro first s ht hf hl hr
    rw [hs first s ht hf]
    subst ht
    refine ⟨(m.written left (first ++ [0])).written right (s ++ [0]), ?_, fun hap => ⟨?_, ?_⟩⟩
    · grind [storeParts_eq]
    · intro i c hi
      have hlt := (List.getElem?_eq_some_iff.mp hi).1
      have hfw (part : Text) : (part ++ [0]).length = part.length + 1 := by simp
      rw [hfw] at hlt
      rw [written_outside (by rw [hfw]; omega)]
      exact written_inside hi
    · exact stored_written _ _ _

theorem split_at_nul (c : SplitCall m a text left left_capacity right right_capacity) :
    mvh_str_split_once m a 0 left left_capacity right right_capacity =
      if left_capacity ≤ text.length ∨ right_capacity = 0 then some (-1, m) else none := by
  have hf := find_char_eq c.spelled 0
  rw [if_pos (List.mem_append_right _ List.mem_cons_self), List.idxOf_append_of_notMem c.spelled.clean,
    List.idxOf_cons_self, Nat.add_zero] at hf
  have hb : m.load (a + text.length + 1) = none := by
    refine if_neg fun hr => ?_
    have hw := (c.reads _).mp hr
    omega
  rw [split_found c hf]
  refine if_congr Iff.rfl rfl ?_
  unfold storeParts mvh_str_length
  grind [lengthLoop]

/-- The split keeps within the text and does what it should, but for the NUL with room enough in
the buffers. -/
theorem the_split_keeps_within_the_text_iff (m : Memory Int8) (a : Nat) (text : Text) (separator : Int8)
    (left left_capacity right right_capacity : Nat)
    (call : SplitCall m a text left left_capacity right right_capacity) :
    Splits m text separator left left_capacity right right_capacity
        (mvh_str_split_once m a separator left left_capacity right right_capacity) ↔
      separator ≠ 0 ∨ left_capacity ≤ text.length ∨ right_capacity = 0 := by
  by_cases hseparator : separator = 0
  · subst hseparator
    rw [split_at_nul call]
    constructor
    · intro h
      have houtcome := h.absent call.spelled.clean
      by_contra hroom
      rw [if_neg fun hgives => hroom (.inr hgives)] at houtcome
      cases houtcome
    · intro h
      rw [if_pos (h.resolve_left (not_not.mpr rfl))]
      have hclean := call.spelled.clean
      refine ⟨fun _ => rfl, fun _ _ _ _ _ => rfl, ?_⟩
      rintro first second rfl
      exact absurd (List.mem_append_right first List.mem_cons_self) hclean
  · exact ⟨fun _ => .inl hseparator, fun _ => splits_of_ne_zero call hseparator⟩

end

/-- A text from address 8 on, which may be read, and buffers of two characters each at 16 and 24. -/
def twoBuffers (text : Text) : Memory Int8 where
  cells x := text.getD (x - 8) 0
  readable x := decide (8 ≤ x ∧ x ≤ 8 + text.length)
  writable x := decide ((16 ≤ x ∧ x < 16 + 2) ∨ (24 ≤ x ∧ x < 24 + 2))

theorem twoBuffers_call {text : Text} (hs : Spelled (twoBuffers text) 8 text) (h : text.length < 8) :
    SplitCall (twoBuffers text) 8 text 16 2 24 2 where
  spelled := hs
  reads _ := decide_eq_true_iff
  writes _ := decide_eq_true_iff
  left_given := by decide
  right_given := by decide
  left_apart := .inl (by omega)
  right_apart := .inl (by omega)

theorem twoBuffers_equation : Spelled (twoBuffers [97, 61, 98]) 8 [97, 61, 98] where
  begins := by simp [begins_cons, begins_nil, load, twoBuffers]
  clean := by decide
  given := by decide
  fits := by decide

/-- The text `a=b` is split at its sign. -/
theorem an_equation_is_split :
    Splits (twoBuffers [97, 61, 98]) [97, 61, 98] 61 16 2 24 2
      (mvh_str_split_once (twoBuffers [97, 61, 98]) 8 61 16 2 24 2) :=
  (the_split_keeps_within_the_text_iff (twoBuffers [97, 61, 98]) 8 [97, 61, 98] 61 16 2 24 2
    (twoBuffers_call twoBuffers_equation (by decide))).mpr (.inl (by decide))

/-- The empty text has no NUL among its characters. Still the split at the NUL reads on behind it,
and if it may, it reports two parts. -/
theorem the_nul_is_passed :
    mvh_str_split_once (twoBuffers []) 8 0 16 2 24 2 = none ∧
      (mvh_str_split_once { twoBuffers [] with readable := fun _ => true } 8 0 16 2 24 2).map Prod.fst = some 0 :=
  ⟨rfl, rfl⟩

/-! ## Joins -/

/-- A destination that may be read and written, and nothing else may be written. -/
structure JoinCall (m : Memory Int8) (d capacity : Nat) : Prop where
  given : d ≠ 0
  room : 0 < capacity
  fits : d + capacity ≤ 2 ^ 64
  reads : ∀ x, d ≤ x → x < d + capacity → m.readable x = true
  writes : ∀ x, m.writable x = true ↔ d ≤ x ∧ x < d + capacity

/-- A text that does not overlap the destination. -/
structure Source (m : Memory Int8) (d capacity a : Nat) (text : Text) : Prop where
  spelled : Spelled m a text
  apart : a + text.length < d ∨ d + capacity ≤ a

section
variable {m : Memory Int8} {d capacity a : Nat} {text before : Text}

theorem concat_eq (c : JoinCall m d capacity) (s : Source m d capacity a text) (hcl : 0 ∉ before)
    (hrm : before.length < capacity) :
    mvh_str_concat (m.written d (before ++ [0])) d capacity a =
      some (UInt64.ofNat (before.length + text.length),
        m.written d ((before ++ text).take (capacity - 1) ++ [0])) := by
  have hf := c.fits
  have hap := s.apart
  have hl : (before ++ [0]).length = before.length + 1 := by simp
  have hh : Spelled (m.written d (before ++ [0])) d before :=
    ⟨begins_written fun i hi => c.reads _ (by omega) (by omega), hcl, c.given, by omega⟩
  have hs : Spelled (m.written d (before ++ [0])) a text := s.spelled.written (by omega)
  have hc : min text.length (capacity - before.length - 1) =
      (text.take (capacity - before.length - 1)).length := by
    rw [List.length_take, Nat.min_comm]
  have hr : (m.written d (before ++ [0])).Begins a (text.take (capacity - before.length - 1)) := by
    have ha := hs.begins.left
    rw [← List.take_append_drop (capacity - before.length - 1) text] at ha
    exact ha.left
  have ht : (before ++ text).take (capacity - 1) = before ++ text.take (capacity - before.length - 1) := by
    rw [List.take_append, List.take_of_length_le (by omega), Nat.sub_right_comm]
  rw [ht]
  generalize text.take (capacity - before.length - 1) = copy at hc hr
  have ho (i : Nat) (hi : i ≤ copy.length) : m.writable (d + before.length + i) = true :=
    (c.writes _).mpr ⟨by omega, by omega⟩
  unfold mvh_str_concat
  rw [nlength_eq hh, Nat.min_eq_left hrm.le, length_eq hs]
  simp only [Option.bind_eq_bind, Option.bind_some]
  have hg : ¬ (d = 0 ∨ capacity = 0 ∨ before.length = capacity) := by
    have hgv := c.given
    omega
  have he : ((m.written d (before ++ [0])).written (d + before.length) copy).writable
      (d + before.length + copy.length) = true := ho _ (Nat.le_refl _)
  have hov : [(0 : Int8)].length ≤ (copy ++ [0]).length := by simp
  rw [if_neg hg, hc, copyAll_eq hr (fun i hi => ho i hi.le) (by omega), Option.bind_some,
    put_eq he, Option.bind_some, written_append, written_over m d before hov, List.append_assoc]

end

theorem take_append_take {α : Type} (n : Nat) (x y : List α) : (x.take n ++ y).take n = (x ++ y).take n := by
  rw [List.take_append, List.take_append, List.take_take, Nat.min_self, List.length_take]
  congr 2
  omega

/-- The destination gets as much of the three texts as there is room for, with a NUL, and the length
of all is returned. -/
theorem the_join_is_bounded (m : Memory Int8) (d capacity l s r : Nat) (left separator right : Text)
    (call : JoinCall m d capacity) (hleft : Source m d capacity l left)
    (hseparator : Source m d capacity s separator) (hright : Source m d capacity r right) :
    ∃ m', mvh_str_join m d capacity l s r = some (UInt64.ofNat (left ++ separator ++ right).length, m') ∧
      Stored m' d ((left ++ separator ++ right).take (capacity - 1)) ∧
      ∀ x, x < d ∨ d + capacity ≤ x → m'.cells x = m.cells x := by
  have hroom := call.room
  have hshort (text : Text) : (text.take (capacity - 1)).length < capacity := by
    rw [List.length_take]
    omega
  have hclean : 0 ∉ left ++ separator := fun h =>
    (List.mem_append.mp h).elim hleft.spelled.clean hseparator.spelled.clean
  have hfirst := concat_eq call hleft List.not_mem_nil hroom
  have hsecond := concat_eq call hseparator (fun h => hleft.spelled.clean (List.mem_of_mem_take h)) (hshort left)
  have hthird := concat_eq call hright (fun h => hclean (List.mem_of_mem_take h)) (hshort (left ++ separator))
  rw [take_append_take] at hsecond hthird
  have hlength : (left ++ separator ++ right).length = left.length + separator.length + right.length := by
    rw [List.length_append, List.length_append]
  have hput : m.put d 0 = some (m.written d ([] ++ [0])) :=
    put_eq ((call.writes d).mpr ⟨by omega, by omega⟩) 0
  refine ⟨m.written d ((left ++ separator ++ right).take (capacity - 1) ++ [0]), ?_, stored_written _ _ _, ?_⟩
  · unfold mvh_str_join
    rw [length_eq hleft.spelled, length_eq hseparator.spelled, length_eq hright.spelled, hlength]
    simp only [Option.bind_eq_bind, Option.bind_some]
    have hguard : ¬ (d = 0 ∨ capacity = 0) := by
      have hgiven := call.given
      omega
    rw [if_neg hguard, hput, Option.bind_some, hfirst, Option.bind_some, List.nil_append, hsecond,
      Option.bind_some, hthird]
    rfl
  · intro x hx
    have hwhole := hshort (left ++ separator ++ right)
    refine written_outside ?_
    rw [List.length_append, List.length_singleton]
    omega

/-- The texts `a`, `-` and `b`, and a destination of three characters. -/
def threeTexts : Memory Int8 where
  cells x := ([97, 0, 45, 0, 98, 0] : Text).getD (x - 8) 0
  readable _ := true
  writable x := decide (32 ≤ x ∧ x < 32 + 3)

theorem threeTexts_call : JoinCall threeTexts 32 3 where
  given := by decide
  room := by decide
  fits := by decide
  reads _ _ _ := rfl
  writes _ := decide_eq_true_iff

theorem threeTexts_source {a : Nat} {c : Int8} (hb : threeTexts.Begins a [c, 0]) (hc : c ≠ 0) (ha : a ≠ 0)
    (hap : a + 1 < 32) : Source threeTexts 32 3 a [c] where
  spelled := ⟨hb, by rwa [List.mem_singleton, eq_comm], ha, by show a + 1 < _; omega⟩
  apart := .inl hap

/-- There is no room for the last text. -/
theorem a_join_is_cut :
    ∃ m', mvh_str_join threeTexts 32 3 8 10 12 = some (UInt64.ofNat ([97] ++ [45] ++ [98] : Text).length, m') ∧
      Stored m' 32 (([97] ++ [45] ++ [98] : Text).take (3 - 1)) ∧
      ∀ x, x < 32 ∨ 32 + 3 ≤ x → m'.cells x = threeTexts.cells x :=
  the_join_is_bounded threeTexts 32 3 8 10 12 [97] [45] [98] threeTexts_call
    (threeTexts_source (by simp [begins_cons, begins_nil, load, threeTexts]) (by decide) (by decide) (by decide))
    (threeTexts_source (by simp [begins_cons, begins_nil, load, threeTexts]) (by decide) (by decide) (by decide))
    (threeTexts_source (by simp [begins_cons, begins_nil, load, threeTexts]) (by decide) (by decide) (by decide))

end mvh.util
