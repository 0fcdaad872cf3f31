-- Lists of bytes as memory: a piece of a list has the words that stand at its place in
-- the memory from which the list was taken.
import MvhKernel.FlatMemory

namespace flat_memory

def ofList (bytes : List UInt8) : Mem := fun i => bytes.getD i 0

theorem slice_succ (m : Mem) (a n : Nat) : slice m a (n + 1) = m a :: slice m (a + 1) n := by
  rw [Nat.add_comm, slice_append]
  rfl

theorem slice_take (m : Mem) (a : Nat) {n k : Nat} (h : k ≤ n) : (slice m a n).take k = slice m a k := by
  obtain ⟨left, rfl⟩ := Nat.exists_eq_add_of_le h
  simp [slice_append, List.take_left']

theorem slice_drop (m : Mem) (a : Nat) {n k : Nat} (h : k ≤ n) : (slice m a n).drop k = slice m (a + k) (n - k) := by
  obtain ⟨left, rfl⟩ := Nat.exists_eq_add_of_le h
  simp [slice_append, List.drop_left', Nat.add_sub_cancel_left]

theorem ofList_slice (m : Mem) (a : Nat) {n i : Nat} (h : i < n) : ofList (slice m a n) i = m (a + i) := by
  rw [ofList, List.getD_eq_getElem?_getD, slice_getElem? m a h]
  rfl

theorem load16_ofList_slice (m : Mem) (a : Nat) {n i : Nat} (h : i + 2 ≤ n) :
    load16 (ofList (slice m a n)) i = load16 m (a + i) := by
  unfold load16
  grind [ofList_slice, Nat.add_assoc]

theorem load32_ofList_slice (m : Mem) (a : Nat) {n i : Nat} (h : i + 4 ≤ n) :
    load32 (ofList (slice m a n)) i = load32 m (a + i) := by
  refine load32_congr fun k hk => ?_
  rw [ofList_slice m a (by omega), Nat.add_assoc]

theorem load64_ofList_slice (m : Mem) (a : Nat) {n i : Nat} (h : i + 8 ≤ n) :
    load64 (ofList (slice m a n)) i = load64 m (a + i) := by
  refine load64_congr fun k hk => ?_
  rw [ofList_slice m a (by omega), Nat.add_assoc]

end flat_memory
