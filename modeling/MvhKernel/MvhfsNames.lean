-- Names.
import MvhKernel.MvhfsRead

open flat_memory mvh.block mvh.crc

namespace mvh.mvhfs

/-! ## The pure model -/

def ValidName (n : List UInt8) : Prop :=
  1 ≤ n.length ∧ n.length ≤ 31 ∧ ∀ b ∈ n, b ≠ 0 ∧ b ≠ 0x2F ∧ b ≠ 0x5C

instance (n : List UInt8) : Decidable (ValidName n) :=
  inferInstanceAs (Decidable (_ ∧ _ ∧ _))

def Name : Type := { n : List UInt8 // ValidName n }

instance : DecidableEq Name := inferInstanceAs (DecidableEq { n : List UInt8 // ValidName n })

def Contents : Type := { c : List UInt8 // c.length ≤ 4096 }

instance : DecidableEq Contents := inferInstanceAs (DecidableEq { c : List UInt8 // c.length ≤ 4096 })

def Contents.empty : Contents := ⟨[], Nat.zero_le _⟩

/-- The name that a string argument gives, or `none` when the filesystem does not take it. -/
def nameOf (text : Mem) : Option Name :=
  match (List.range 32).find? fun k => text k == 0 with
  | none => none
  | some k => if h : ValidName (slice text 0 k) then some ⟨slice text 0 k, h⟩ else none

def nameField (n : Name) : List UInt8 := n.val ++ List.replicate (32 - n.val.length) 0

/-! ## Strings in memory -/

theorem slice_byte {m : Mem} {a n : Nat} {l : List UInt8} (h : slice m a n = l) {i : Nat}
    (hi : i < n) : l[i]? = some (m (a + i)) := by
  rw [← h]
  exact slice_getElem? m a hi

theorem nameOf_eq_some {t : Mem} {n : Name} :
    nameOf t = some n ↔ slice t 0 n.val.length = n.val ∧ t n.val.length = 0 := by
  obtain ⟨n, hn⟩ := n
  constructor
  · grind [slice_length, nameOf]
  · rintro ⟨hs, hz⟩
    simp only at hs hz
    have hf : (List.range 32).find? (fun k => t k == 0) = some n.length := by
      rw [List.find?_eq_some_iff_getElem]
      refine ⟨by simp [hz], n.length, by rw [List.length_range]; have := hn.2.1; omega,
        by simp, ?_⟩
      intro j hj
      have hb := slice_byte hs hj
      rw [Nat.zero_add] at hb
      have hne := (hn.2.2 _ (List.mem_of_getElem? hb)).1
      simpa using hne
    grind [nameOf]

theorem nameOf_bytes {t : Mem} {n : Name} (h : nameOf t = some n) :
    (∀ i < n.val.length, t i ≠ 0 ∧ t i ≠ 0x2F ∧ t i ≠ 0x5C) ∧ t n.val.length = 0 := by
  obtain ⟨hs, hz⟩ := nameOf_eq_some.mp h
  refine ⟨?_, hz⟩
  intro i hi
  have hb := slice_byte hs hi
  rw [Nat.zero_add] at hb
  exact n.property.2.2 _ (List.mem_of_getElem? hb)

/-! ## The checks of the source -/

theorem valid_name_loop_eq (t : Mem) (f k : Nat) (hk : k + f = 32) :
    valid_name_loop t f k = true ↔ ∃ z, k ≤ z ∧ z < 32 ∧ t z = 0 ∧
      ∀ i, k ≤ i → i < z → t i ≠ 0 ∧ t i ≠ 0x2F ∧ t i ≠ 0x5C := by
  induction f generalizing k with
  | zero =>
    constructor
    · intro h
      cases h
    omega
  | succ f ih =>
    unfold valid_name_loop
    by_cases h0 : t k = 0
    · grind
    · rw [if_neg h0]
      by_cases hb : k + 1 ≥ MVHFS_NAME_MAX ∨ t k = 0x2F ∨ t k = 0x5C
      · rw [if_pos hb]
        simp only [Bool.false_eq_true, false_iff]
        rintro ⟨z, h1, h2, hz, ha⟩
        have hne : k ≠ z := by grind
        have hby := ha k (Nat.le_refl k) (by omega)
        have hm : MVHFS_NAME_MAX = 32 := rfl
        grind
      · grind

theorem valid_name_iff (t : Mem) : valid_name (some t) = true ↔ ∃ n, nameOf t = some n := by
  unfold valid_name
  simp only
  by_cases h0 : t 0 = 0
  · rw [if_pos h0]
    simp only [Bool.false_eq_true, false_iff]
    rintro ⟨n, hn⟩
    have := (nameOf_bytes hn).1 0 n.property.1
    exact this.1 h0
  · rw [if_neg h0, valid_name_loop_eq t MVHFS_NAME_MAX 0 rfl]
    constructor
    · rintro ⟨z, _, h2, hz, ha⟩
      have hp : z ≠ 0 := by grind
      have hv : ValidName (slice t 0 z) := by
        refine ⟨by rw [slice_length]; omega, by rw [slice_length]; omega, ?_⟩
        intro b hb
        obtain ⟨i, hi, rfl⟩ := List.mem_map.mp hb
        grind
      refine ⟨⟨slice t 0 z, hv⟩, nameOf_eq_some.mpr ?_⟩
      grind
    · rintro ⟨n, hn⟩
      obtain ⟨ha, hz⟩ := nameOf_bytes hn
      have := n.property.2.1
      grind

theorem entry_name_equal_loop_eq (e t : Mem) (f k : Nat) (hk : k + f = 32) :
    entry_name_equal_loop e t f k = true ↔ ∃ z, k ≤ z ∧ z < 32 ∧ t z = 0 ∧
      ∀ i, k ≤ i → i ≤ z → e i = t i := by
  induction f generalizing k with
  | zero =>
    constructor
    · intro h
      cases h
    omega
  | succ f ih => grind [entry_name_equal_loop]

theorem entry_name_equal_iff {e t : Mem} {n : Name} (h : nameOf t = some n)
    (hu : load32 e 32 ≠ 0) : entry_name_equal e t = true ↔ nameOf e = some n := by
  obtain ⟨hs, hzr⟩ := nameOf_eq_some.mp h
  unfold entry_name_equal
  rw [if_neg hu, entry_name_equal_loop_eq e t MVHFS_NAME_MAX 0 rfl, nameOf_eq_some]
  constructor
  · rintro ⟨z, _, _, hz, ha⟩
    -- The loop stops at the first zero of the string, which is the end of the name.
    have hle : n.val.length ≤ z := by
      by_contra hlt
      exact ((nameOf_bytes h).1 z (by omega)).1 hz
    grind [slice_length, slice_congr]
  · rintro ⟨hen, hed⟩
    have := n.property.2.1
    refine ⟨n.val.length, Nat.zero_le _, by omega, hzr, fun i _ hi => ?_⟩
    by_cases he : i = n.val.length
    · rw [he, hed, hzr]
    · have := slice_inj (hen.trans hs.symm) i (by omega)
      rwa [Nat.zero_add] at this

theorem nameOf_nameField {e : Mem} {n : Name} (h : slice e 0 32 = nameField n) :
    nameOf e = some n := by
  have hl := n.property.2.1
  rw [nameOf_eq_some]
  constructor
  · apply List.ext_getElem?
    intro i
    by_cases hi : i < n.val.length
    · have hb := slice_byte h (show i < 32 by omega)
      grind [nameField, List.getElem?_append_left, slice_getElem?]
    grind
  · have hb := slice_byte h (show n.val.length < 32 by omega)
    rw [nameField, List.getElem?_append_right (Nat.le_refl _), Nat.sub_self,
      List.getElem?_replicate, if_pos (by omega), Nat.zero_add] at hb
    exact (Option.some.inj hb).symm

end mvh.mvhfs
