-- Mixing loses nothing: `entropy_add` changes the state in a way that can be undone, up
-- to eight bytes can be read off the state after it, and the estimate of the entropy only
-- grows, up to 256 bits.
import MvhKernel.Random
import MvhKernel.Runs

open runs

namespace mvh.random

/-! ## Rotation -/

section
variable {amount : UInt32}

theorem rotate_left_bit (v : UInt32) (hlw : 0 < amount.toNat) (hh : amount.toNat < 32) {i : Nat} (hi : i < 32) :
    (rotate_left v amount).toBitVec.getLsbD i =
      v.toBitVec.getLsbD (if i < amount.toNat then i + 32 - amount.toNat else i - amount.toNat) := by
  have ht : (32 : UInt32).toNat = 32 := rfl
  have hs : (32 - amount).toNat = 32 - amount.toNat := by grind
  have hl : (amount.toBitVec % 32).toNat = amount.toNat := by
    rw [BitVec.toNat_umod, UInt32.toNat_toBitVec]
    exact Nat.mod_eq_of_lt hh
  have hr : ((32 - amount).toBitVec % 32).toNat = 32 - amount.toNat := by
    rw [BitVec.toNat_umod, UInt32.toNat_toBitVec, hs]
    grind
  unfold rotate_left
  rw [UInt32.toBitVec_or, UInt32.toBitVec_shiftLeft, UInt32.toBitVec_shiftRight, BitVec.getLsbD_or]
  grind

theorem rotate_left_back (value : UInt32) (hl : 0 < amount.toNat) (hh : amount.toNat < 32) :
    rotate_left (rotate_left value amount) (32 - amount) = value := by
  have hs : (32 - amount).toNat = 32 - amount.toNat := by grind
  refine UInt32.toBitVec_inj.mp (BitVec.eq_of_getLsbD_eq fun i hi => ?_)
  grind [rotate_left_bit]

theorem rotate_left_bijective (hl : 0 < amount.toNat) (hh : amount.toNat < 32) :
    Function.Bijective fun v => rotate_left v amount := by
  have hs : (32 - amount).toNat = 32 - amount.toNat := by grind
  have hb : 32 - (32 - amount) = amount := by grind
  refine Function.bijective_iff_has_inverse.mpr ⟨fun v => rotate_left v (32 - amount), fun v => ?_, fun v => ?_⟩
  · exact rotate_left_back v hl hh
  · grind [rotate_left_back]

end

/-! ## One byte -/

theorem update_bijective {ι α : Type} [DecidableEq ι] (i : ι) (f : (ι → α) → α → α)
    (hf : ∀ s, Function.Bijective (f s)) (ho : ∀ s v, f (Function.update s i v) = f s) :
    Function.Bijective fun s => Function.update s i (f s (s i)) := by
  constructor
  · intro s t hst
    have hst : Function.update s i (f s (s i)) = Function.update t i (f t (t i)) := hst
    have hr : s = Function.update t i (s i) := by
      funext j
      by_cases hj : j = i
      · rw [hj, Function.update_self]
      · have hat := congrFun hst j
        grind
    have hs : f s = f t := by
      rw [hr]
      exact ho t (s i)
    have hw := congrFun hst i
    rw [Function.update_self, Function.update_self, hs] at hw
    rw [hr, (hf t).injective hw, Function.update_eq_self]
  · intro t
    obtain ⟨v, hv⟩ := (hf t).surjective (t i)
    refine ⟨Function.update t i v, ?_⟩
    grind

theorem xor_bijective (mask : UInt32) : Function.Bijective fun word : UInt32 => word ^^^ mask := by
  have hu (word : UInt32) : word ^^^ mask ^^^ mask = word := by
    rw [UInt32.xor_assoc, UInt32.xor_self, UInt32.xor_zero]
  exact Function.bijective_iff_has_inverse.mpr ⟨fun word => word ^^^ mask, hu, hu⟩

def mixed (index : UInt32) (byte : UInt8) : UInt32 :=
  rotate_left (byte.toUInt32 + 0x9E3779B9 + index) (index % 31 + 1)

theorem slot_ne (index : UInt32) : slot index ≠ 14 ∧ slot index ≠ 15 := by
  have hl := Nat.mod_lt index.toNat (show 8 > 0 by decide)
  refine ⟨fun h => ?_, fun h => ?_⟩
  · have hv : 4 + index.toNat % 8 = 14 := congrArg Fin.val h
    omega
  · have hv : 4 + index.toNat % 8 = 15 := congrArg Fin.val h
    omega

theorem entropy_byte_bijective (index : UInt32) (byte : UInt8) :
    Function.Bijective fun st => entropy_byte st index byte := by
  obtain ⟨h14, h15⟩ := slot_ne index
  -- the three words one after the other
  have hk := update_bijective (slot index) (fun _ (word : UInt32) => word ^^^ mixed index byte)
    (fun _ => xor_bijective _) fun _ _ => rfl
  have hs := update_bijective 14 (fun (s : Fin 16 → UInt32) word => word ^^^ (s (slot index) + s 15))
    (fun s => xor_bijective _) fun s v => by grind
  have hl := update_bijective 15 (fun (_ : Fin 16 → UInt32) word => rotate_left (word ^^^ byte.toUInt32) 7)
    (fun _ => (rotate_left_bijective (by decide) (by decide)).comp (xor_bijective _)) fun _ _ => rfl
  exact (hl.comp hs).comp hk

theorem entropy_loop_bijective (data : List UInt8) (index : UInt32) :
    Function.Bijective fun s => entropy_loop s index data := by
  induction data generalizing index with
  | nil => exact Function.bijective_id
  | cons byte data ih => exact (ih (index + 1)).comp (entropy_byte_bijective index byte)

/-! ## Up to eight bytes -/

theorem mixed_injective (index : UInt32) : Function.Injective (mixed index) := by
  have ha : (index % 31 + 1).toNat = index.toNat % 31 + 1 := by grind
  have hl := Nat.mod_lt index.toNat (show 31 > 0 by decide)
  intro byte b' h
  have hs := (rotate_left_bijective (by omega) (by omega)).injective h
  grind [UInt8.toNat_toUInt32, UInt8.toNat_inj.mp, UInt32.add_left_inj]

theorem entropy_byte_slot (s : Fin 16 → UInt32) (index : UInt32) (byte : UInt8) :
    entropy_byte s index byte (slot index) = s (slot index) ^^^ mixed index byte := by
  obtain ⟨h14, h15⟩ := slot_ne index
  show Function.update _ 15 _ (slot index) = _
  rw [Function.update_of_ne h15, Function.update_of_ne h14]
  exact Function.update_self ..

theorem entropy_byte_other (s : Fin 16 → UInt32) (index : UInt32) (byte : UInt8) {k : Fin 16}
    (hky : k.val < 12) (hk : k ≠ slot index) : entropy_byte s index byte k = s k := by
  have h14 : k ≠ 14 := by omega
  have h15 : k ≠ 15 := by omega
  show Function.update _ 15 _ k = _
  rw [Function.update_of_ne h15, Function.update_of_ne h14]
  exact Function.update_of_ne hk ..

theorem entropy_loop_before (s : Fin 16 → UInt32) (index : UInt32) (d : List UInt8) {k : Fin 16}
    (hk : k.val < 4 + index.toNat) (hf : index.toNat + d.length ≤ 8) : entropy_loop s index d k = s k := by
  induction d generalizing s index with
  | nil => rfl
  | cons byte d ih =>
    rw [List.length_cons] at hf
    have hn : (index + 1).toNat = index.toNat + 1 := by grind
    rw [entropy_loop, ih _ (index + 1) (by omega) (by omega)]
    refine entropy_byte_other s index byte (by omega) fun h => ?_
    have hv : k.val = 4 + index.toNat % 8 := congrArg Fin.val h
    omega

theorem entropy_loop_injective {s : Fin 16 → UInt32} {index : UInt32} {d data' : List UInt8}
    (hl : d.length = data'.length) (hf : index.toNat + d.length ≤ 8)
    (h : entropy_loop s index d = entropy_loop s index data') : d = data' := by
  induction d generalizing s index data' with
  | nil => exact (List.length_eq_zero_iff.mp hl.symm).symm
  | cons byte d ih =>
    cases data' with
    | nil => cases hl
    | cons byte' data' =>
      have hr : d.length = data'.length := Nat.succ.inj hl
      rw [List.length_cons] at hf
      have hn : (index + 1).toNat = index.toNat + 1 := by grind
      have hs : (slot index).val < 4 + (index + 1).toNat := by
        show 4 + index.toNat % 8 < _
        omega
      have hw := congrFun h (slot index)
      rw [entropy_loop, entropy_loop, entropy_loop_before _ _ _ hs (by omega),
        entropy_loop_before _ _ _ hs (by omega), entropy_byte_slot, entropy_byte_slot] at hw
      have hm : mixed index byte = mixed index byte' := by
        have hc := congrArg (s (slot index) ^^^ ·) hw
        simpa only [← UInt32.xor_assoc, UInt32.xor_self, UInt32.zero_xor] using hc
      obtain rfl := mixed_injective index hm
      rw [ih hr (by omega) h]

/-! ## The estimate -/

inductive Call
  | entropy (data : List UInt8) (estimated_bits : UInt32)
  | bytes (size : UInt32)

def step (g : Generator) : Call → Generator
  | .entropy data estimated_bits => entropy_add g data estimated_bits
  | .bytes size => (random_bytes g size).2

/-- The estimate is at most 256 bits, and at least as much as before. -/
def Estimates (least : UInt32) (g : Generator) : Prop := least ≤ g.entropy_bits ∧ g.entropy_bits ≤ 256

theorem Estimates.entropy {least : UInt32} {g : Generator} (h : Estimates least g) (d : List UInt8)
    (e : UInt32) : Estimates least (entropy_add g d e) := by
  obtain ⟨hl, hm⟩ := h
  grind [Estimates, entropy_add, UInt32.le_iff_toNat_le.mp, UInt32.toNat_sub_of_le]

theorem random_loop_bits (s : Nat) (g : Generator) : (random_loop s g).2.entropy_bits = g.entropy_bits := by
  induction s generalizing g with
  | zero => rfl
  | succ s ih =>
    simp only [random_loop]
    rw [ih]
    unfold random_byte
    split
    · rfl
    · rfl

theorem Estimates.step {least : UInt32} {g : Generator} (h : Estimates least g) (c : Call) :
    Estimates least (step g c) := by
  cases c with
  | entropy d e => exact h.entropy d e
  | bytes s =>
    unfold Estimates random.step random_bytes
    rw [random_loop_bits]
    exact h

theorem Estimates.hardware {least : UInt32} {g : Generator} (h : Estimates least g) (r : List (UInt8 × UInt64))
    (p : Option UInt64) : Estimates least (hardware_loop r p g) := by
  induction r generalizing g p with
  | nil => exact h
  | cons rs rest ih =>
    unfold hardware_loop
    split
    · exact ih (h.entropy _ _) _
    · exact ih h _

theorem random_init_estimates (b : Generator) (s : Sources) :
    Estimates 0 (random_init b s) := by
  have hs : (0 : UInt32) ≤ 256 := by decide
  have hc : Estimates 0 { b with random_state := constants, random_available := 0, entropy_bits := 0 } :=
    ⟨UInt32.le_refl 0, hs⟩
  exact ((hc.entropy _ 8).hardware _ none).entropy _ 4

/-- For fixed bytes the change of the state can be undone, for a fixed state and number of bytes up to
eight the bytes can be told, and after `random_init` the estimate never falls and is never more than 256. -/
theorem mixing_loses_no_entropy :
    (∀ (g : Generator) (data : List UInt8) (estimated_bits : UInt32), Function.Bijective fun state =>
      (entropy_add { g with random_state := state } data estimated_bits).random_state) ∧
    (∀ (g : Generator) (data data' : List UInt8) (estimated_bits : UInt32),
      data.length = data'.length → data.length ≤ 8 →
      (entropy_add g data estimated_bits).random_state = (entropy_add g data' estimated_bits).random_state →
      data = data') ∧
    ∀ (before : Generator) (sources : Sources) (calls more : List Call),
      (run step (random_init before sources) calls).entropy_bits ≤
        (run step (random_init before sources) (calls ++ more)).entropy_bits ∧
      (run step (random_init before sources) calls).entropy_bits ≤ 256 := by
  refine ⟨fun g data estimated_bits => ?_, fun g data data' estimated_bits hlength hfew h => ?_,
    fun before sources calls more => ?_⟩
  · by_cases hdata : data = []
    · simp only [entropy_add, if_pos hdata]
      exact Function.bijective_id
    · simp only [entropy_add, if_neg hdata]
      exact entropy_loop_bijective data 0
  · have hloop (data : List UInt8) : (entropy_add g data estimated_bits).random_state = entropy_loop g.random_state 0 data := by
      by_cases hdata : data = []
      · rw [entropy_add, if_pos hdata, hdata]
        rfl
      · rw [entropy_add, if_neg hdata]
    rw [hloop, hloop] at h
    exact entropy_loop_injective hlength (by show 0 + data.length ≤ 8; omega) h
  · have hmost : Estimates 0 (run step (random_init before sources) calls) :=
      run_keeps (fun _ call h => h.step call) (random_init_estimates before sources) calls
    have hsplit : run step (random_init before sources) (calls ++ more) =
        run step (run step (random_init before sources) calls) more := List.foldl_append
    rw [hsplit]
    generalize run step (random_init before sources) calls = g at hmost ⊢
    have hgrows : Estimates g.entropy_bits (run step g more) :=
      run_keeps (fun _ call h => h.step call) ⟨UInt32.le_refl _, hmost.2⟩ more
    exact ⟨hgrows.1, hmost.2⟩

end mvh.random
