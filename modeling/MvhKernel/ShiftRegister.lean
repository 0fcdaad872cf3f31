-- Shift registers that divide by a polynomial over two elements.
import Mathlib.Algebra.Field.ZMod
import Mathlib.RingTheory.AdjoinRoot

open Polynomial

namespace shift_register

/-! ## Rows of bits -/

def coefficient (b : Bool) : ZMod 2 := if b then 1 else 0

/-- The polynomial of a row of bits. -/
noncomputable def ofBits : List Bool → (ZMod 2)[X]
  | [] => 0
  | b :: bits => C (coefficient b) * X ^ bits.length + ofBits bits

theorem coefficient_xor (a b : Bool) : coefficient (a ^^ b) = coefficient a + coefficient b := by
  revert a b
  decide

theorem coefficient_injective : Function.Injective coefficient := by
  intro a b
  revert a b
  decide

theorem ofBits_append (l k : List Bool) : ofBits (l ++ k) = ofBits l * X ^ k.length + ofBits k := by
  induction l with
  | nil => simp [ofBits]
  | cons b l ih => grind [List.cons_append, ofBits, List.length_append]

theorem degree_ofBits_lt (l : List Bool) : (ofBits l).degree < l.length := by
  induction l with
  | nil => simp [ofBits]
  | cons b l ih =>
    refine (degree_add_le _ _).trans_lt (max_lt ?_ ?_)
    · refine (degree_C_mul_X_pow_le _ _).trans_lt ?_
      rw [List.length_cons]
      exact_mod_cast Nat.lt_succ_self _
    · refine ih.trans ?_
      rw [List.length_cons]
      exact_mod_cast Nat.lt_succ_self _

theorem coeff_ofBits_cons (b : Bool) (l : List Bool) :
    (ofBits (b :: l)).coeff l.length = coefficient b := by
  rw [ofBits, coeff_add, coeff_C_mul_X_pow, if_pos rfl,
    coeff_eq_zero_of_degree_lt (degree_ofBits_lt l), add_zero]

theorem ofBits_injective {l k : List Bool} (hl : l.length = k.length) (h : ofBits l = ofBits k) :
    l = k := by
  induction l generalizing k with
  | nil => exact (List.length_eq_zero_iff.mp hl.symm).symm
  | cons a l ih =>
    rcases k with _ | ⟨b, k⟩
    · cases hl
    · have hl : l.length = k.length := Nat.succ.inj hl
      have hab : coefficient a = coefficient b := by grind [coeff_ofBits_cons]
      grind [ofBits, coefficient_injective]

theorem coeff_ofBits (l k : List Bool) (b : Bool) :
    (ofBits (l ++ b :: k)).coeff k.length = coefficient b := by
  rw [ofBits_append, coeff_add, List.length_cons, coeff_mul_X_pow', if_neg (by omega), zero_add,
    coeff_ofBits_cons]

theorem ofBits_replicate_true (n : Nat) :
    ofBits (List.replicate n true) = ∑ i ∈ Finset.range n, X ^ i := by
  induction n with
  | zero => rfl
  | succ n ih =>
    have ho : C (coefficient true) = (1 : (ZMod 2)[X]) := rfl
    grind [List.replicate_succ, ofBits, List.length_replicate, Finset.sum_range_succ]

theorem ofBits_replicate_false (n : Nat) : ofBits (List.replicate n false) = 0 := by
  induction n with
  | zero => rfl
  | succ n ih => rw [List.replicate_succ, ofBits, ih]; simp [coefficient]

/-! ## Words -/

section
variable {w k : Nat}

def bitsOf (v : BitVec w) : List Bool := (List.range w).map v.getLsbD

/-- The polynomial of a word: the low bit is the highest coefficient. -/
noncomputable def toPoly (v : BitVec w) : (ZMod 2)[X] := ofBits (bitsOf v)

@[simp] theorem length_bitsOf (v : BitVec w) : (bitsOf v).length = w := by
  simp [bitsOf]

theorem degree_toPoly_lt (v : BitVec w) : (toPoly v).degree < w := by
  have h := degree_ofBits_lt (bitsOf v)
  rwa [length_bitsOf] at h

theorem coeff_toPoly (v : BitVec w) {i : Nat} (hi : i < w) :
    (toPoly v).coeff (w - 1 - i) = coefficient (v.getLsbD i) := by
  have hg : (bitsOf v)[i]? = some (v.getLsbD i) := by
    rw [bitsOf, List.getElem?_map, List.getElem?_range hi, Option.map_some]
  obtain ⟨hlt, hg⟩ := List.getElem?_eq_some_iff.mp hg
  have hs : bitsOf v = (bitsOf v).take i ++ v.getLsbD i :: (bitsOf v).drop (i + 1) := by
    rw [← hg, List.getElem_cons_drop, List.take_append_drop]
  have hc := coeff_ofBits ((bitsOf v).take i) ((bitsOf v).drop (i + 1)) (v.getLsbD i)
  rw [← hs, List.length_drop, length_bitsOf] at hc
  rw [Nat.sub_sub, Nat.add_comm 1 i]
  exact hc

theorem bitsOf_injective : Function.Injective (bitsOf (w := w)) := by
  intro a b h
  apply BitVec.eq_of_getLsbD_eq
  intro i hi
  have hg := congrArg (fun l => l[i]?) h
  simpa [bitsOf, List.getElem?_range hi] using hg

theorem toPoly_injective : Function.Injective (toPoly (w := w)) := by
  intro a b h
  apply bitsOf_injective
  apply ofBits_injective _ h
  rw [length_bitsOf, length_bitsOf]

theorem ofBits_map_xor (f g : Nat → Bool) (l : List Nat) :
    ofBits (l.map fun i => f i ^^ g i) = ofBits (l.map f) + ofBits (l.map g) := by
  induction l with
  | nil => simp [ofBits]
  | cons i l ih => grind [List.map_cons, ofBits, coefficient_xor, List.length_map]

theorem toPoly_xor (a b : BitVec w) : toPoly (a ^^^ b) = toPoly a + toPoly b := by
  have hb : bitsOf (a ^^^ b) = (List.range w).map fun i => a.getLsbD i ^^ b.getLsbD i := by
    apply List.map_congr_left
    intro i _
    rw [BitVec.getLsbD_xor]
  rw [toPoly, hb, ofBits_map_xor]
  rfl

@[simp] theorem toPoly_zero : toPoly 0#w = 0 := by
  have hb : bitsOf 0#w = List.replicate w false := by
    apply List.ext_getElem
    · simp
    · intro i _ _
      simp [bitsOf]
  rw [toPoly, hb, ofBits_replicate_false]

theorem toPoly_setWidth (h : k ≤ w) (b : BitVec k) : toPoly (b.setWidth w) = toPoly b * X ^ (w - k) := by
  have hb : bitsOf (b.setWidth w) = bitsOf b ++ List.replicate (w - k) false := by
    apply List.ext_getElem?
    intro i
    unfold bitsOf
    grind
  grind [toPoly, ofBits_append, ofBits_replicate_false, List.length_replicate]

/-! ## The register -/

/-- One turn: the low bit goes out, and when it is set the taps are added. -/
def shiftOut (taps v : BitVec w) : BitVec w := (v >>> 1) ^^^ (if v.getLsbD 0 then taps else 0#w)

noncomputable def generator (taps : BitVec w) : (ZMod 2)[X] := X ^ w + toPoly taps

theorem generator_monic (taps : BitVec w) : (generator taps).Monic :=
  monic_X_pow_add (degree_toPoly_lt taps)

theorem degree_generator (taps : BitVec w) : (generator taps).degree = w := by
  unfold generator
  rw [degree_add_eq_left_of_degree_lt, degree_X_pow]
  rw [degree_X_pow]
  exact degree_toPoly_lt taps

theorem toPoly_shift (v : BitVec w) (hw : 0 < w) :
    toPoly v * X = C (coefficient (v.getLsbD 0)) * X ^ w + toPoly (v >>> 1) := by
  obtain ⟨n, rfl⟩ : ∃ n, w = n + 1 := ⟨w - 1, by omega⟩
  have hv : bitsOf v = v.getLsbD 0 :: (List.range n).map fun i => v.getLsbD (i + 1) := by
    simp [bitsOf, List.range_succ_eq_map, Function.comp_def]
  have hs : bitsOf (v >>> 1) = ((List.range n).map fun i => v.getLsbD (i + 1)) ++ [false] := by
    simp [bitsOf, List.range_succ, Nat.add_comm 1]
  have hl : ofBits [false] = 0 := ofBits_replicate_false 1
  rw [toPoly, toPoly, hv, hs, ofBits_append, hl, ofBits, List.length_map, List.length_range,
    List.length_singleton, pow_one, add_zero, pow_succ]
  ring

theorem toPoly_shiftOut (taps v : BitVec w) (hw : 0 < w) :
    toPoly (shiftOut taps v) = toPoly v * X + C (coefficient (v.getLsbD 0)) * generator taps := by
  rw [shiftOut, toPoly_xor, toPoly_shift v hw, generator]
  cases v.getLsbD 0
  · simp [coefficient]
  · have ht : (X ^ w + X ^ w : (ZMod 2)[X]) = 0 := CharTwo.add_self_eq_zero _
    have ho : C (coefficient true) = (1 : (ZMod 2)[X]) := rfl
    grind

def turns (taps : BitVec w) (n : Nat) (v : BitVec w) : BitVec w := Nat.repeat (shiftOut taps) n v

/-- A word of `k` bits comes in at the low end, then as many bits go out. -/
def feed (taps v : BitVec w) (b : BitVec k) : BitVec w := turns taps k (v ^^^ b.setWidth w)

/-! ## Remainders -/

theorem mk_turns (taps : BitVec w) (hw : 0 < w) (n : Nat) (v : BitVec w) :
    AdjoinRoot.mk (generator taps) (toPoly (turns taps n v)) =
      AdjoinRoot.mk (generator taps) (toPoly v * X ^ n) := by
  induction n with
  | zero => rw [pow_zero, mul_one]; rfl
  | succ n ih =>
    have ht : turns taps (n + 1) v = shiftOut taps (turns taps n v) := rfl
    rw [ht, toPoly_shiftOut _ _ hw, pow_succ, ← mul_assoc]
    simp only [map_add, map_mul, ih, AdjoinRoot.mk_self, mul_zero, add_zero]

theorem mk_feed (taps : BitVec w) (hw : 0 < w) (hk : k ≤ w) (v : BitVec w) (b : BitVec k) :
    AdjoinRoot.mk (generator taps) (toPoly (feed taps v b)) =
      AdjoinRoot.mk (generator taps) (toPoly v * X ^ k + toPoly b * X ^ w) := by
  have hp : (X : (ZMod 2)[X]) ^ (w - k) * X ^ k = X ^ w := by
    rw [← pow_add, Nat.sub_add_cancel hk]
  grind [feed, mk_turns, toPoly_xor, toPoly_setWidth]

def messageBits (message : List (BitVec k)) : List Bool := message.flatMap bitsOf

@[simp] theorem length_messageBits (message : List (BitVec k)) :
    (messageBits message).length = k * message.length := by
  induction message with
  | nil => rfl
  | cons b message ih =>
    have hc : messageBits (b :: message) = bitsOf b ++ messageBits message := rfl
    rw [hc, List.length_append, ih, length_bitsOf, List.length_cons, Nat.mul_succ, Nat.add_comm]

theorem messageBits_injective {a b : List (BitVec k)} (hl : a.length = b.length)
    (h : messageBits a = messageBits b) : a = b := by
  induction a generalizing b with
  | nil => exact (List.length_eq_zero_iff.mp hl.symm).symm
  | cons x a ih =>
    rcases b with _ | ⟨y, b⟩
    · cases hl
    · have hs : bitsOf x ++ messageBits a = bitsOf y ++ messageBits b := h
      grind [length_bitsOf, bitsOf_injective, List.append_inj]

theorem mk_foldl_feed (taps : BitVec w) (hw : 0 < w) (hk : k ≤ w) (m : List (BitVec k))
    (v : BitVec w) :
    AdjoinRoot.mk (generator taps) (toPoly (m.foldl (feed taps) v)) =
      AdjoinRoot.mk (generator taps)
        (ofBits (messageBits m) * X ^ w + toPoly v * X ^ (k * m.length)) := by
  induction m generalizing v with
  | nil => simp [messageBits, ofBits]
  | cons b m ih =>
    have hb : ofBits (messageBits (b :: m)) =
        toPoly b * X ^ (k * m.length) + ofBits (messageBits m) := by
      rw [← length_messageBits m]
      exact ofBits_append (bitsOf b) (messageBits m)
    have hf := mk_feed taps hw hk v b
    simp only [map_add, map_mul] at hf
    rw [List.foldl_cons, ih, hb, List.length_cons, Nat.mul_succ, pow_add]
    grind

theorem toPoly_foldl_feed (taps : BitVec w) (hw : 0 < w) (hk : k ≤ w) (m : List (BitVec k))
    (v : BitVec w) :
    toPoly (m.foldl (feed taps) v) =
      (ofBits (messageBits m) * X ^ w + toPoly v * X ^ (k * m.length)) %ₘ generator taps := by
  have hm := generator_monic taps
  have hd := AdjoinRoot.mk_eq_mk.mp (mk_foldl_feed taps hw hk m v)
  rw [← modByMonic_eq_of_dvd_sub hm hd, eq_comm, modByMonic_eq_self_iff hm, degree_generator]
  exact degree_toPoly_lt _

/-! ## Bursts -/

theorem isCoprime_generator (taps : BitVec w) (hw : 0 < w) (ht : taps.getLsbD (w - 1) = true) (n : Nat) :
    IsCoprime (generator taps) (X ^ n) := by
  have hz : (generator taps).coeff 0 ≠ 0 := by
    obtain ⟨m, rfl⟩ : ∃ m, w = m + 1 := ⟨w - 1, by omega⟩
    have hb : bitsOf taps = (List.range m).map taps.getLsbD ++ [true] := by
      grind [bitsOf, List.range_succ]
    have hr : toPoly taps = ofBits ((List.range m).map taps.getLsbD) * X + 1 := by
      rw [toPoly, hb, ofBits_append]
      simp [ofBits, coefficient]
    rw [generator, hr]
    simp
  refine IsCoprime.pow_right (IsCoprime.symm ?_)
  rw [irreducible_X.coprime_iff_not_dvd, X_dvd_iff]
  exact hz

theorem eq_of_mk_eq (taps : BitVec w) (hw : 0 < w) (ht : taps.getLsbD (w - 1) = true) {p q : (ZMod 2)[X]}
    {n : Nat} (hp : p.degree < w) (hq : q.degree < w)
    (h : AdjoinRoot.mk (generator taps) (p * X ^ n) = AdjoinRoot.mk (generator taps) (q * X ^ n)) : p = q := by
  have hd : generator taps ∣ (p - q) * X ^ n := by
    rw [sub_mul]
    exact AdjoinRoot.mk_eq_mk.mp h
  have hd := (isCoprime_generator taps hw ht n).dvd_of_dvd_mul_right hd
  have hs : (p - q).degree < (generator taps).degree := by
    rw [degree_generator]
    exact (degree_sub_le _ _).trans_lt (max_lt hp hq)
  exact sub_eq_zero.mp (eq_zero_of_dvd_of_degree_lt hd hs)

theorem foldl_feed_left_injective (taps : BitVec w) (hw : 0 < w) (hk : k ≤ w)
    (ht : taps.getLsbD (w - 1) = true) {m : List (BitVec k)} {u v : BitVec w}
    (h : m.foldl (feed taps) u = m.foldl (feed taps) v) : u = v := by
  have hmk := congrArg (fun r => AdjoinRoot.mk (generator taps) (toPoly r)) h
  simp only [mk_foldl_feed taps hw hk] at hmk
  rw [map_add, map_add] at hmk
  exact toPoly_injective
    (eq_of_mk_eq taps hw ht (degree_toPoly_lt u) (degree_toPoly_lt v) (add_left_cancel hmk))

theorem foldl_feed_right_injective (taps : BitVec w) (hw : 0 < w) (hk : k ≤ w)
    (ht : taps.getLsbD (w - 1) = true) {x y : List (BitVec k)} (hl : x.length = y.length)
    (hwn : k * x.length ≤ w) {v : BitVec w}
    (h : x.foldl (feed taps) v = y.foldl (feed taps) v) : x = y := by
  have hs : ∀ z : List (BitVec k), z.length = x.length → (ofBits (messageBits z)).degree < w := by
    intro z hz
    refine (degree_ofBits_lt _).trans_le ?_
    rw [length_messageBits, hz]
    exact_mod_cast hwn
  have hmk := congrArg (fun r => AdjoinRoot.mk (generator taps) (toPoly r)) h
  simp only [mk_foldl_feed taps hw hk] at hmk
  rw [map_add, map_add, hl] at hmk
  have hb := eq_of_mk_eq taps hw ht (hs x rfl) (hs y hl.symm) (add_right_cancel hmk)
  refine messageBits_injective hl (ofBits_injective ?_ hb)
  simp [length_messageBits, hl]

theorem foldl_feed_window (taps : BitVec w) (hw : 0 < w) (hk : k ≤ w)
    (ht : taps.getLsbD (w - 1) = true) {b x y after : List (BitVec k)}
    (hl : x.length = y.length) (hwn : k * x.length ≤ w) {v : BitVec w}
    (h : (b ++ x ++ after).foldl (feed taps) v = (b ++ y ++ after).foldl (feed taps) v) :
    x = y := by
  rw [List.foldl_append, List.foldl_append, List.foldl_append, List.foldl_append] at h
  exact foldl_feed_right_injective taps hw hk ht hl hwn
    (foldl_feed_left_injective taps hw hk ht h)

end

end shift_register
