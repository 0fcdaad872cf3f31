-- Computations on machine words that note whether every step gave the exact number.
import Mathlib

namespace exact_words

/-- A value, and whether every step on the way to it was exact. -/
structure Noted (α : Type) where
  value : α
  exact : Bool
  deriving DecidableEq

section
variable {α β : Type}

instance : Monad Noted where
  pure a := ⟨a, true⟩
  bind x f := ⟨(f x.value).value, x.exact && (f x.value).exact⟩

theorem bind_of_eq_pure {x : Noted α} {a : α} (h : x = pure a) (f : α → Noted β) : (x >>= f) = f a := by
  rw [h]
  rfl

end

/-- The number that a word stands for. -/
class Word (ω : Type) where
  number : ω → Int

instance : Word UInt32 := ⟨fun w => w.toNat⟩
instance : Word UInt64 := ⟨fun w => w.toNat⟩
instance : Word Int8 := ⟨Int8.toInt⟩
instance : Word Int32 := ⟨Int32.toInt⟩
instance : Word Int64 := ⟨Int64.toInt⟩

section
variable {ω : Type} [Word ω]

def note (result : ω) (number : Int) : Noted ω := ⟨result, Word.number result = number⟩

def add [Add ω] (a b : ω) : Noted ω := note (a + b) (Word.number a + Word.number b)

def sub [Sub ω] (a b : ω) : Noted ω := note (a - b) (Word.number a - Word.number b)

def mul [Mul ω] (a b : ω) : Noted ω := note (a * b) (Word.number a * Word.number b)

def neg [Neg ω] (a : ω) : Noted ω := note (-a) (-Word.number a)

theorem note_exact {result : ω} {nm : Int} (h : Word.number result = nm) : note result nm = pure result := by
  unfold note
  rw [decide_eq_true h]
  rfl

end

/-! ## Unsigned words -/

theorem add64 {a b : UInt64} (h : a.toNat + b.toNat < 2 ^ 64) : add a b = pure (a + b) := by
  refine note_exact ?_
  show ((a + b).toNat : Int) = a.toNat + b.toNat
  rw [UInt64.toNat_add, Nat.mod_eq_of_lt h]
  rfl

theorem sub64 {a b : UInt64} (h : b.toNat ≤ a.toNat) : sub a b = pure (a - b) := by
  refine note_exact ?_
  show ((a - b).toNat : Int) = a.toNat - b.toNat
  rw [UInt64.toNat_sub_of_le _ _ (UInt64.le_iff_toNat_le.mpr h)]
  omega

theorem mul64 {a b : UInt64} (h : a.toNat * b.toNat < 2 ^ 64) : mul a b = pure (a * b) := by
  refine note_exact ?_
  show ((a * b).toNat : Int) = a.toNat * b.toNat
  rw [UInt64.toNat_mul, Nat.mod_eq_of_lt h]
  rfl

/-! ## Signed words -/

def Fits32 (n : Int) : Prop := -2 ^ 31 ≤ n ∧ n < 2 ^ 31

theorem toInt_ofInt32 {n : Int} (h : Fits32 n) : (Int32.ofInt n).toInt = n := Int32.toInt_ofInt_of_le h.1 h.2

theorem le_ofInt32 {m n : Int} (hm : Fits32 m) (hn : Fits32 n) : Int32.ofInt m ≤ Int32.ofInt n ↔ m ≤ n := by
  rw [Int32.le_iff_toInt_le, toInt_ofInt32 hm, toInt_ofInt32 hn]

section
variable {m n : Int} (hm : Fits32 m) (hn : Fits32 n)
include hm

theorem neg32 (h : Fits32 (-m)) : neg (Int32.ofInt m) = pure (Int32.ofInt (-m)) := by
  rw [Int32.ofInt_neg]
  refine note_exact ?_
  show (-Int32.ofInt m).toInt = -(Int32.ofInt m).toInt
  rw [← Int32.ofInt_neg, toInt_ofInt32 h, toInt_ofInt32 hm]

include hn

theorem add32 (h : Fits32 (m + n)) : add (Int32.ofInt m) (Int32.ofInt n) = pure (Int32.ofInt (m + n)) := by
  rw [Int32.ofInt_add]
  refine note_exact ?_
  show (Int32.ofInt m + Int32.ofInt n).toInt = (Int32.ofInt m).toInt + (Int32.ofInt n).toInt
  rw [← Int32.ofInt_add, toInt_ofInt32 h, toInt_ofInt32 hm, toInt_ofInt32 hn]

theorem sub32 (h : Fits32 (m - n)) : sub (Int32.ofInt m) (Int32.ofInt n) = pure (Int32.ofInt (m - n)) := by
  rw [Int32.ofInt_sub]
  refine note_exact ?_
  show (Int32.ofInt m - Int32.ofInt n).toInt = (Int32.ofInt m).toInt - (Int32.ofInt n).toInt
  rw [← Int32.ofInt_sub, toInt_ofInt32 h, toInt_ofInt32 hm, toInt_ofInt32 hn]

theorem mul32 (h : Fits32 (m * n)) : mul (Int32.ofInt m) (Int32.ofInt n) = pure (Int32.ofInt (m * n)) := by
  rw [Int32.ofInt_mul]
  refine note_exact ?_
  show (Int32.ofInt m * Int32.ofInt n).toInt = (Int32.ofInt m).toInt * (Int32.ofInt n).toInt
  rw [← Int32.ofInt_mul, toInt_ofInt32 h, toInt_ofInt32 hm, toInt_ofInt32 hn]

end

end exact_words
