-- How many pages the calls of `vmm.c` take.
import MvhKernel.VmmInit

open flat_memory

namespace mvh.vmm

variable {A : Type}

/-- With a stock of pages the allocator gives one, and has one page less to give. -/
structure Stocked (pmm_alloc_pages : Mem → A → UInt64 × A) (stock : Nat → A → Prop) : Prop where
  fewer : ∀ {n a}, stock (n + 1) a → stock n a
  gives : ∀ {n a} (m : Mem), stock (n + 1) a → (pmm_alloc_pages m a).1 ≠ 0
  takes : ∀ {n a} (m : Mem), stock (n + 1) a → stock n (pmm_alloc_pages m a).2

/-- One page at most is gone, and the result is there if it was asked for. -/
def Served (stock : Nat → A → Prop) (n : Nat) (create : Bool) (r : Option UInt64 × Vmm A) : Prop :=
  stock n r.2.pmm ∧ (create = true → r.1 ≠ none)

section
variable {pmm_alloc_pages : Mem → A → UInt64 × A} {stock : Nat → A → Prop} {n : Nat} {s : Vmm A}
variable (hstock : Stocked pmm_alloc_pages stock) (h : stock (n + 1) s.pmm)
include hstock h

theorem new_table_served : ∃ t s', new_table pmm_alloc_pages s = (some t, s') ∧
    stock n s'.pmm := by
  refine ⟨(pmm_alloc_pages s.mem s.pmm).1, _, if_neg (hstock.gives s.mem h), ?_⟩
  exact hstock.takes s.mem h

theorem addTable_served (e : Nat) (create : Bool) :
    Served stock n create (addTable pmm_alloc_pages s e create) := by
  obtain ⟨t, s', hn, hl⟩ := new_table_served hstock h
  unfold addTable
  split
  · rename_i hnt
    exact ⟨hstock.fewer h, fun hc => by rw [hnt] at hc; cases hc⟩
  · rw [hn]
    exact ⟨hl, fun _ => nofun⟩

theorem enter_served (e : Nat) (create : Bool) :
    Served stock n create (enter pmm_alloc_pages s e create) := by
  have ha := addTable_served hstock h e create
  unfold enter
  split
  · generalize addTable pmm_alloc_pages s e create = r at ha
    rcases r with ⟨_ | t, s'⟩
    · exact ha
    · exact ⟨ha.1, fun _ => nofun⟩
  · exact ⟨hstock.fewer h, fun _ => nofun⟩

theorem enterLast_served (e : Nat) (create : Bool) :
    Served stock n create (enterLast pmm_alloc_pages s e create) := by
  unfold enterLast
  split
  · obtain ⟨t, s', hn, hl⟩ := new_table_served hstock h
    unfold split_huge_page
    rw [hn]
    exact ⟨hl, fun _ => nofun⟩
  split
  · exact addTable_served hstock h e create
  · exact ⟨hstock.fewer h, fun _ => nofun⟩

end

section
variable {pmm_alloc_pages : Mem → A → UInt64 × A} {stock : Nat → A → Prop} {n : Nat} {s : Vmm A}
variable (hstock : Stocked pmm_alloc_pages stock) (h : stock (n + 3) s.pmm)
include hstock h

theorem walk_served (a : UInt64) (create : Bool) :
    stock n (walk pmm_alloc_pages s a create).2.pmm ∧
      (create = true → (walk pmm_alloc_pages s a create).1 ≠ none) := by
  have h3 := enter_served hstock h (slot (active_pml4 s) (a >>> 39)) create
  unfold walk
  generalize enter pmm_alloc_pages s (slot (active_pml4 s) (a >>> 39)) create = r at h3
  rcases r with ⟨_ | p, s1⟩
  · exact ⟨hstock.fewer (hstock.fewer h3.1), fun hc => absurd rfl (h3.2 hc)⟩
  have h2 := enter_served hstock h3.1 (slot p (a >>> 30)) create
  simp only at h2 ⊢
  generalize enter pmm_alloc_pages s1 (slot p (a >>> 30)) create = r at h2
  rcases r with ⟨_ | pd, s2⟩
  · exact ⟨hstock.fewer h2.1, fun hc => absurd rfl (h2.2 hc)⟩
  have h1 := enterLast_served hstock h2.1 (slot pd (a >>> 21)) create
  simp only at h1 ⊢
  generalize enterLast pmm_alloc_pages s2 (slot pd (a >>> 21)) create = r at h1
  rcases r with ⟨_ | pt, s3⟩
  · exact ⟨h1.1, fun hc => absurd rfl (h1.2 hc)⟩
  · exact ⟨h1.1, fun _ => nofun⟩

theorem map_served (v p f : UInt64) :
    stock n (vmm_map_page pmm_alloc_pages s v p f).1.pmm ∧
      (v &&& (4096 - 1) = 0 → p &&& (4096 - 1) = 0 →
        (vmm_map_page pmm_alloc_pages s v p f).2 = 0) := by
  have hw := walk_served hstock h v true
  unfold vmm_map_page
  split
  · rename_i hr
    refine ⟨hstock.fewer (hstock.fewer (hstock.fewer h)), fun hv hp => ?_⟩
    grind
  · grind

theorem unmap_served (v : UInt64) : stock n (vmm_unmap_page pmm_alloc_pages s v).1.pmm := by
  have hw := (walk_served hstock h v false).1
  unfold vmm_unmap_page
  split
  · exact hstock.fewer (hstock.fewer (hstock.fewer h))
  · grind

theorem query_served (v : UInt64) : stock n (vmm_query_page pmm_alloc_pages s v).1.pmm := by
  have hw := (walk_served hstock h v false).1
  grind [vmm_query_page]

end

/-! ## The set-up -/

section
variable {stock : Nat → pmm.Pmm → Prop} (hstock : Stocked allocPage stock)
include hstock

theorem fewer_of_le {n k : Nat} {pmm : pmm.Pmm} (hle : n ≤ k) (h : stock k pmm) : stock n pmm := by
  induction k with
  | zero => exact (Nat.le_zero.mp hle) ▸ h
  | succ k ih =>
    rcases Nat.lt_or_eq_of_le hle with hlt | rfl
    · exact ih (Nat.le_of_lt_succ hlt) (hstock.fewer h)
    · exact h

theorem andThen_served {n k : Nat} (hle : n ≤ k) {r : Vmm pmm.Pmm × Int}
    {next : Vmm pmm.Pmm → Vmm pmm.Pmm × Int} (h : stock k r.1.pmm)
    (hn : ∀ s, stock k s.pmm → stock n (next s).1.pmm) : stock n (andThen r next).1.pmm :=
  andThen_rule (P := fun s => stock k s.pmm) (Q := fun s => stock n s.pmm) h
    (fun _ hs => fewer_of_le hstock hle hs) hn

theorem mapEach_served (f l : UInt64) (turns : Nat) (a : UInt64) {n : Nat}
    {s : Vmm pmm.Pmm} (h : stock (n + 3 * turns) s.pmm) :
    stock n (mapEach f l turns a s).1.pmm := by
  induction turns generalizing a s with
  | zero => exact h
  | succ turns ih =>
    unfold mapEach
    split
    · exact andThen_served hstock (Nat.le_add_right n (3 * turns)) (map_served hstock h _ _ _).1
        fun s hs => ih (a + 4096) hs
    · exact fewer_of_le hstock (Nat.le_add_right n _) h

def Layout.turns (layout : Layout) : Nat :=
  turnsTo layout.kernel_start layout.text_end + turnsTo layout.rodata_start layout.rodata_end +
    turnsTo (roundUp layout.rodata_end) (roundUp layout.kernel_end)

theorem vmm_init_served (f : UInt64) (l : Layout) {n : Nat} {s : Vmm pmm.Pmm}
    (h : stock (n + 3 * l.turns + 3) s.pmm) : stock n (vmm_init f l s).1.pmm := by
  have hsm : n + 3 * l.turns =
      n + 3 * turnsTo (roundUp l.rodata_end) (roundUp l.kernel_end) +
        3 * turnsTo l.rodata_start l.rodata_end +
        3 * turnsTo l.kernel_start l.text_end := by
    unfold Layout.turns
    omega
  rw [hsm] at h
  have hst : stock _ (Vmm.pmm { s with mapped_page_count := bootCount (identityGib f) }) := h
  refine andThen_served hstock (by omega) (unmap_served hstock hst 0) fun s hs => ?_
  refine andThen_served hstock (by omega) (mapEach_served hstock _ _ _ _ hs) fun s hs => ?_
  refine andThen_served hstock (by omega) (mapEach_served hstock _ _ _ _ hs) fun s hs => ?_
  exact mapEach_served hstock _ _ _ _ hs

end

end mvh.vmm
