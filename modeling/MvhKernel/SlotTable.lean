-- A finite map kept in a table of numbered slots.
import Mathlib

namespace slot_table

variable {κ ν : Type} [DecidableEq κ]

/-- The slots below `n` hold the pairs of the map, each in just one slot. -/
structure Stores (n : Nat) (table : Nat → Option (κ × ν)) (files : Finmap fun _ : κ => ν) : Prop where
  distinct : ∀ i < n, ∀ j < n, ∀ k v v', table i = some (k, v) → table j = some (k, v') → i = j
  holds : ∀ k v, files.lookup k = some v ↔ ∃ i < n, table i = some (k, v)

variable {n : Nat} {table : Nat → Option (κ × ν)} {files : Finmap fun _ : κ => ν}

theorem stores_empty : Stores n (fun _ => none) (∅ : Finmap fun _ : κ => ν) :=
  ⟨by simp, by simp⟩

theorem Stores.slot_ne (h : Stores n table files) {k : κ} (hk : k ∉ files) {i : Nat} (hi : i < n) :
    ∀ v, table i ≠ some (k, v) := by
  intro v he
  have hl := (h.holds k v).mpr ⟨i, hi, he⟩
  exact hk (Finmap.mem_of_lookup_eq_some hl)

theorem Stores.slot_of_mem (h : Stores n table files) {k : κ} (hk : k ∈ files) :
    ∃ i < n, ∃ v, table i = some (k, v) ∧ files.lookup k = some v := by
  obtain ⟨v, hv⟩ := Finmap.mem_iff.mp hk
  obtain ⟨i, hi, he⟩ := (h.holds k v).mp hv
  exact ⟨i, hi, v, he, hv⟩

theorem Stores.put (h : Stores n table files) {i : Nat} (hi : i < n) (k : κ) (v : ν)
    (hf : ∀ k' v', table i = some (k', v') → k' = k)
    (ho : ∀ j < n, j ≠ i → ∀ v', table j ≠ some (k, v')) :
    Stores n (Function.update table i (some (k, v))) (files.insert k v) := by
  refine ⟨?_, ?_⟩
  · intro a ha b hb k' v1 v2 h1 h2
    by_cases hai : a = i
    · grind
    · rw [Function.update_of_ne hai] at h1
      by_cases hbi : b = i
      · grind
      · rw [Function.update_of_ne hbi] at h2
        exact h.distinct a ha b hb k' v1 v2 h1 h2
  · intro k' v'
    by_cases hk : k' = k
    · subst hk
      rw [Finmap.lookup_insert]
      constructor
      · intro he
        cases he
        exact ⟨i, hi, Function.update_self _ _ _⟩
      grind
    · rw [Finmap.lookup_insert_of_ne _ hk, h.holds]
      constructor
      · rintro ⟨j, hj, he⟩
        have hji : j ≠ i := by grind
        exact ⟨j, hj, by rw [Function.update_of_ne hji]; exact he⟩
      grind

theorem Stores.put_new (h : Stores n table files) {i : Nat} (hi : i < n) (hf : table i = none)
    {k : κ} (hk : k ∉ files) (v : ν) :
    Stores n (Function.update table i (some (k, v))) (files.insert k v) := by
  apply h.put hi k v
  · simp [hf]
  · intro j hj _ v'
    exact h.slot_ne hk hj v'

theorem Stores.put_old (h : Stores n table files) {i : Nat} (hi : i < n) {k : κ} {v0 : ν}
    (hold : table i = some (k, v0)) (v : ν) :
    Stores n (Function.update table i (some (k, v))) (files.insert k v) := by
  apply h.put hi k v
  · simp [hold]
  · intro j hj hji v' he
    exact hji (h.distinct j hj i hi k v' v0 he hold)

theorem Stores.clear (h : Stores n table files) {i : Nat} (hi : i < n) {k : κ} {v : ν}
    (hold : table i = some (k, v)) :
    Stores n (Function.update table i none) (files.erase k) := by
  have hne : ∀ j < n, j ≠ i → ∀ v', table j ≠ some (k, v') := by
    intro j hj hji v' he
    exact hji (h.distinct j hj i hi k v' v he hold)
  have hs : ∀ j k' v', Function.update table i none j = some (k', v') →
      j ≠ i ∧ table j = some (k', v') := by grind
  refine ⟨?_, ?_⟩
  · intro a ha b hb k' v1 v2 h1 h2
    exact h.distinct a ha b hb k' v1 v2 (hs _ _ _ h1).2 (hs _ _ _ h2).2
  · intro k' v'
    by_cases hk : k' = k
    · subst hk
      rw [Finmap.lookup_erase]
      grind
    · rw [Finmap.lookup_erase_ne hk, h.holds]
      grind

/-! ## The pairs in slot order -/

def listing (n : Nat) (table : Nat → Option (κ × ν)) : List (κ × ν) := (List.range n).filterMap table

omit [DecidableEq κ] in
theorem mem_listing {p : κ × ν} : p ∈ listing n table ↔ ∃ i < n, table i = some p := by
  unfold listing
  simp

theorem Stores.mem_listing_iff (h : Stores n table files) (k : κ) (v : ν) :
    (k, v) ∈ listing n table ↔ files.lookup k = some v := by
  rw [mem_listing, h.holds]

theorem Stores.listing_nodup (h : Stores n table files) :
    ((listing n table).map Prod.fst).Nodup := by
  unfold listing
  rw [List.map_filterMap, List.Nodup, List.pairwise_filterMap]
  refine List.Pairwise.imp_of_mem ?_ List.nodup_range
  intro a b ha hb hab k h1 k' h2 hk
  subst hk
  simp only [Option.map_eq_some_iff] at h1 h2
  obtain ⟨⟨_, v⟩, hv, rfl⟩ := h1
  obtain ⟨⟨_, v'⟩, hv', he⟩ := h2
  simp only at he
  subst he
  exact hab (h.distinct a (List.mem_range.mp ha) b (List.mem_range.mp hb) _ v v' hv hv')

theorem Stores.listing_length (h : Stores n table files) :
    (listing n table).length = files.keys.card := by
  have hk : ((listing n table).map Prod.fst).toFinset = files.keys := by
    ext k
    rw [List.mem_toFinset, List.mem_map, Finmap.mem_keys, Finmap.mem_iff]
    constructor
    · rintro ⟨⟨k', v⟩, hm, rfl⟩
      exact ⟨v, (h.mem_listing_iff _ _).mp hm⟩
    · rintro ⟨v, hv⟩
      exact ⟨(k, v), (h.mem_listing_iff k v).mpr hv, rfl⟩
  rw [← hk, List.toFinset_card_of_nodup h.listing_nodup, List.length_map]

theorem Stores.free_iff (h : Stores n table files) :
    (∃ i < n, table i = none) ↔ files.keys.card < n := by
  have hle : (listing n table).length ≤ n := by
    have := List.length_filterMap_le table (List.range n)
    rwa [List.length_range] at this
  have hf : (listing n table).length = n ↔ ∀ i < n, (table i).isSome := by
    have := List.filterMap_length_eq_length (f := table) (l := List.range n)
    grind [List.length_range, listing]
  rw [← h.listing_length]
  constructor
  · grind
  grind [Option.isSome_iff_ne_none, Nat.ne_of_lt]

end slot_table
