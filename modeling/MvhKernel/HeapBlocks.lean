-- The heap as a list of blocks, and how memory holds such a list: each block starts where
-- the one before it ends, and the headers are linked both ways.
import MvhKernel.Heap

open flat_memory

namespace mvh.heap

/-! ## Blocks -/

/-- A block is free, or it is in use with the size that was asked for. -/
structure Block where
  size : Nat
  used : Option Nat
  deriving DecidableEq

def Block.length (b : Block) : Nat := 40 + b.size

def span (bs : List Block) : Nat := (bs.map Block.length).sum

@[simp] theorem span_nil : span [] = 0 := rfl

@[simp] theorem span_cons (b : Block) (bs : List Block) : span (b :: bs) = 40 + b.size + span bs := by
  simp [span, Block.length]

@[simp] theorem span_append (xs ys : List Block) : span (xs ++ ys) = span xs + span ys := by
  simp [span]

/-- The address of the first block, or what follows when there is none. -/
def headOr (a : Nat) (bs : List Block) (after : Nat) : Nat := if bs = [] then after else a

/-- The address of the last block, or what comes before when there is none. -/
def lastOr (before a : Nat) : List Block → Nat
  | [] => before
  | b :: bs => lastOr a (a + 40 + b.size) bs

@[simp] theorem headOr_nil (a after : Nat) : headOr a [] after = after := rfl

@[simp] theorem headOr_cons (a after : Nat) (b : Block) (bs : List Block) : headOr a (b :: bs) after = a := rfl

theorem headOr_append (a after : Nat) (xs ys : List Block) :
    headOr a (xs ++ ys) after = headOr a xs (headOr (a + span xs) ys after) := by
  cases xs with
  | nil => simp
  | cons b xs => simp

theorem lastOr_append (before a : Nat) (xs ys : List Block) :
    lastOr before a (xs ++ ys) = lastOr (lastOr before a xs) (a + span xs) ys := by
  induction xs generalizing before a with
  | nil => simp [lastOr]
  | cons b xs ih => simp [lastOr, ih, Nat.add_assoc]

theorem lastOr_concat (before a : Nat) (xs : List Block) (b : Block) :
    lastOr before a (xs ++ [b]) = a + span xs := by
  rw [lastOr_append]
  rfl

/-! ## Blocks in memory -/

/-- The header at `a` is that of the block, with these neighbours. -/
structure HeaderAt (m : Mem) (a : Nat) (b : Block) (before after : Nat) : Prop where
  magic : magic m a = HEAP_MAGIC
  free : isFree m a = if b.used = none then 1 else 0
  size : (size m a).toNat = b.size
  requested : (requested m a).toNat = b.used.getD 0
  next : next m a = after
  previous : previous m a = before
  canary : b.used ≠ none → load64 m (a + 40 + b.size - 8) = canary a

/-- Memory holds the blocks from address `a` on. -/
def Seg (m : Mem) (before a : Nat) : List Block → Nat → Prop
  | [], _ => True
  | b :: bs, after =>
    HeaderAt m a b before (headOr (a + 40 + b.size) bs after) ∧ Seg m a (a + 40 + b.size) bs after

theorem seg_append {m : Mem} {before a after : Nat} {xs ys : List Block} :
    Seg m before a (xs ++ ys) after ↔
      Seg m before a xs (headOr (a + span xs) ys after) ∧ Seg m (lastOr before a xs) (a + span xs) ys after := by
  induction xs generalizing before a with
  | nil => simp [Seg, lastOr]
  | cons b xs ih => grind [List.cons_append, Seg, lastOr, span_cons, headOr_append]

/-! ## What is not written stays -/

/-- The sizes that blocks have: a block in use has room for what was asked and the canary. -/
structure Block.Fits (b : Block) : Prop where
  size : 16 ≤ b.size
  used : ∀ n, b.used = some n → n + 8 ≤ b.size

section
variable {m m' : Mem} {a before after : Nat} {b : Block}

theorem HeaderAt.relink {n : Nat} (h : HeaderAt m a b before after) (hf : b.Fits)
    (hh : ∀ x, a ≤ x → x < a + 32 → m' x = m x)
    (hc : b.used ≠ none → ∀ x, a + 40 + b.size - 8 ≤ x → x < a + 40 + b.size → m' x = m x)
    (hp : heap.previous m' a = n) : HeaderAt m' a b n after := by
  have hl (k : Nat) (hk : k + 8 ≤ 32) : load64 m' (a + k) = load64 m (a + k) := by grind [load64_congr]
  have hs := hf.size
  refine ⟨?_, ?_, ?_, ?_, ?_, hp, ?_⟩
  · rw [← h.magic]
    exact load32_congr fun i hi => hh _ (by omega) (by omega)
  · rw [← h.free]
    exact hh _ (by omega) (by omega)
  · rw [← h.size]
    exact congrArg UInt64.toNat (hl 8 (by omega))
  · rw [← h.requested]
    exact congrArg UInt64.toNat (hl 16 (by omega))
  · rw [← h.next]
    exact congrArg UInt64.toNat (hl 24 (by omega))
  · intro hu
    rw [← h.canary hu]
    grind [load64_congr]

theorem HeaderAt.congr (h : HeaderAt m a b before after) (hf : b.Fits)
    (hh : ∀ x, a ≤ x → x < a + 40 → m' x = m x)
    (hc : b.used ≠ none → ∀ x, a + 40 + b.size - 8 ≤ x → x < a + 40 + b.size → m' x = m x) :
    HeaderAt m' a b before after := by
  refine h.relink hf (fun x h1 h2 => hh x h1 (by omega)) hc ?_
  rw [← h.previous]
  exact congrArg UInt64.toNat (load64_congr fun i hi => hh _ (by omega) (by omega))

theorem Seg.congr {bs : List Block} (h : Seg m before a bs after) (hf : ∀ b ∈ bs, b.Fits)
    (hs : ∀ x, a ≤ x → x < a + span bs → m' x = m x) : Seg m' before a bs after := by
  induction bs generalizing before a with
  | nil => trivial
  | cons b bs ih =>
    have hb := hf b List.mem_cons_self
    rw [span_cons] at hs
    refine ⟨h.1.congr hb ?_ ?_, ih h.2 (fun c hc => hf c (List.mem_cons_of_mem _ hc)) ?_⟩
    · exact fun x h1 h2 => hs x h1 (by omega)
    · grind
    · grind

end

end mvh.heap
