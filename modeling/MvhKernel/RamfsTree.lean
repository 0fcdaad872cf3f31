-- The nodes in use are a tree below node 0, and the current directory is one of its
-- directories, as long as nobody removes the current directory.
import MvhKernel.Ramfs

open forest

namespace mvh.ramfs

/-! ## Walking a path -/

theorem mem_indices {index : Index} : index ∈ indices ↔ index ≠ 0 := by
  have h : ∀ index : Index, index ∈ indices ↔ index ≠ 0 := by decide
  exact h index

theorem resolve_segment_le {path s s' rest : Text}
    (h : resolve_segment path s = some (s', rest)) : rest.length ≤ path.length := by
  induction path generalizing s with
  | nil =>
    obtain ⟨_, rfl⟩ := Prod.mk.inj (Option.some.inj h)
    exact Nat.le_refl _
  | cons c path ih =>
    unfold resolve_segment at h
    grind

theorem ne_slash_of_dropWhile {path p' : Text} {c : Char} (hs : path.dropWhile (· = '/') = c :: p') :
    c ≠ '/' := by
  have hh := List.head?_dropWhile_not (· = '/') path
  simpa [hs] using hh

theorem resolve_segment_lt {path p' s rest : Text} {c : Char}
    (hs : path.dropWhile (· = '/') = c :: p') (h : resolve_segment (c :: p') [] = some (s, rest)) :
    rest.length < path.length := by
  have hc := ne_slash_of_dropWhile hs
  have hle := (List.dropWhile_suffix (l := path) (· = '/')).length_le
  rw [hs, List.length_cons] at hle
  unfold resolve_segment at h
  rw [if_neg hc] at h
  simpa using Nat.lt_of_le_of_lt (resolve_segment_le h) hle

theorem find_child_eq_some {fs : Ramfs} {parent child : Index} {n : Text}
    (h : find_child fs parent n = some child) :
    child ≠ 0 ∧ (fs.nodes child).used = true ∧ (fs.nodes child).parent = parent := by
  have hm := mem_indices.mp (List.mem_of_find?_eq_some h)
  have hf := List.find?_some h
  grind

theorem resolve_loop_mem {fs : Ramfs} {P : Index → Prop} (hp : ∀ i, P i → P (fs.nodes i).parent)
    (hc : ∀ i, (fs.nodes i).used = true → P i) (f : Nat) {nd n : Index} {path : Text} (hn : P nd)
    (h : resolve_loop fs f nd path = some n) : P n := by
  induction f generalizing nd path with
  | zero => exact Option.some.inj h ▸ hn
  | succ f ih =>
    unfold resolve_loop at h
    split at h
    · exact Option.some.inj h ▸ hn
    split at h
    · contradiction
    split at h
    · exact ih hn h
    split at h
    · exact ih (hp _ hn) h
    split at h
    · contradiction
    split at h
    · contradiction
    next child hf => exact ih (hc child (find_child_eq_some hf).2.1) h

@[simp] theorem setNode_same (fs : Ramfs) (i : Index) (node : Node) :
    (fs.setNode i node).nodes i = node := Function.update_self ..

theorem setNode_ne (fs : Ramfs) (n : Node) {i j : Index} (h : j ≠ i) :
    (fs.setNode i n).nodes j = fs.nodes j := Function.update_of_ne h ..

/-! ## The tree -/

/-- The current directory is a directory in use, every node in use but the root has one as its
parent, and the parents lead to the root. -/
structure Tree (fs : Ramfs) : Prop where
  current : (fs.nodes fs.current_directory).used = true ∧ (fs.nodes fs.current_directory).is_directory = true
  parent : ∀ i, i ≠ 0 → (fs.nodes i).used = true →
    (fs.nodes (fs.nodes i).parent).used = true ∧ (fs.nodes (fs.nodes i).parent).is_directory = true
  reaches : ∀ i, (fs.nodes i).used = true → Reaches 0 (fun i => (fs.nodes i).parent) i

/-- The tree, with what is known about its root. -/
structure Sound (fs : Ramfs) : Prop where
  rooted : Rooted 0 (fun i => (fs.nodes i).parent) fun i => (fs.nodes i).used = true
  directory : ∀ i, (fs.nodes i).used = true → (fs.nodes (fs.nodes i).parent).is_directory = true
  current_used : (fs.nodes fs.current_directory).used = true
  current_directory : (fs.nodes fs.current_directory).is_directory = true

namespace Sound

variable {fs : Ramfs}

theorem tree (h : Sound fs) : Tree fs where
  current := ⟨h.current_used, h.current_directory⟩
  parent i _ hi := ⟨h.rooted.closed i hi, h.directory i hi⟩
  reaches := h.rooted.reaches

theorem resolve_used (h : Sound fs) {path : Text} {n : Index} (hn : resolve fs path = some n) :
    (fs.nodes n).used = true := by
  refine resolve_loop_mem h.rooted.closed (fun _ hi => hi) _ ?_ hn
  split
  · exact h.rooted.root_used
  · exact h.current_used

theorem resolve_parent_used (h : Sound fs) {path n : Text} {p : Index}
    (hp : resolve_parent fs path = some (p, n)) :
    (fs.nodes p).used = true ∧ (fs.nodes p).is_directory = true := by
  unfold resolve_parent at hp
  simp only at hp
  split at hp
  · contradiction
  split at hp
  · contradiction
  split at hp
  · contradiction
  split at hp
  · obtain ⟨rfl, _⟩ := Prod.mk.inj (Option.some.inj hp)
    exact ⟨h.current_used, h.current_directory⟩
  split at hp
  · contradiction
  next r hr =>
    split at hp
    · contradiction
    next hd =>
      obtain ⟨rfl, _⟩ := Prod.mk.inj (Option.some.inj hp)
      exact ⟨h.resolve_used hr, Bool.not_eq_false _ ▸ hd⟩

theorem congr {fs' : Ramfs} (h : Sound fs)
    (hn : ∀ i, (fs'.nodes i).used = (fs.nodes i).used ∧ (fs'.nodes i).is_directory = (fs.nodes i).is_directory ∧
      (fs'.nodes i).parent = (fs.nodes i).parent)
    (hc : fs'.current_directory = fs.current_directory) : Sound fs' := by
  have hu i := (hn i).1
  have hd i := (hn i).2.1
  have hp i := (hn i).2.2
  obtain ⟨hr, h2, h3, h4⟩ := h
  constructor
  · simpa only [hp, hu] using hr
  · simpa only [hp, hu, hd] using h2
  · simpa only [hu, hc] using h3
  · simpa only [hd, hc] using h4

theorem enter (h : Sound fs) {i : Index} (hu : (fs.nodes i).used = true)
    (hd : (fs.nodes i).is_directory = true) : Sound { fs with current_directory := i } :=
  ⟨h.rooted, h.directory, hu, hd⟩

theorem create (h : Sound fs) {i : Index} {n : Node} (hi : (fs.nodes i).used = false)
    (hn : n.used = true) (hp : (fs.nodes n.parent).used = true)
    (hd : (fs.nodes n.parent).is_directory = true) : Sound (fs.setNode i n) := by
  have hne {j : Index} (hj : (fs.nodes j).used = true) : j ≠ i := by grind
  have hs {j : Index} (hj : (fs.nodes j).used = true) : (fs.setNode i n).nodes j = fs.nodes j :=
    setNode_ne fs n (hne hj)
  have hu (j : Index) : ((fs.setNode i n).nodes j).used = true ↔ (fs.nodes j).used = true ∨ j = i := by
    by_cases hj : j = i
    · simp [hj, hn]
    · simp [setNode_ne fs n hj, hj]
  constructor
  · refine h.rooted.insert (i := i) (p := n.parent) (by simp [hi]) hp (by simp) hu ?_
    intro j hj
    rw [hs hj]
  · intro j hj
    rcases (hu j).mp hj with hold | rfl
    · rw [hs hold, hs (h.rooted.closed j hold)]
      exact h.directory j hold
    grind [setNode_same]
  · exact (hu _).mpr (Or.inl h.current_used)
  · rw [show (fs.setNode i n).current_directory = fs.current_directory from rfl, hs h.current_used]
    exact h.current_directory

theorem remove (h : Sound fs) {i : Index} (hr : i ≠ 0) (hc : i ≠ fs.current_directory)
    (hl : ∀ j, j ≠ 0 → (fs.nodes j).used = true → (fs.nodes j).parent ≠ i) :
    Sound (fs.setNode i { fs.nodes i with used := false }) := by
  have hu (j : Index) : ((fs.setNode i { fs.nodes i with used := false }).nodes j).used = true ↔
      (fs.nodes j).used = true ∧ j ≠ i := by
    by_cases hj : j = i
    · simp [hj]
    · simp [setNode_ne fs _ hj, hj]
  have hp (j : Index) : ((fs.setNode i { fs.nodes i with used := false }).nodes j).parent =
      (fs.nodes j).parent := by
    by_cases hj : j = i
    · simp [hj]
    · rw [setNode_ne fs _ hj]
  have hd (j : Index) : ((fs.setNode i { fs.nodes i with used := false }).nodes j).is_directory =
      (fs.nodes j).is_directory := by
    by_cases hj : j = i
    · simp [hj]
    · rw [setNode_ne fs _ hj]
  constructor
  · simp only [hp]
    refine h.rooted.erase hr (fun j hj _ => ?_) hu
    by_cases hz : j = 0
    · rw [hz, h.rooted.root_parent]
      exact hr.symm
    · exact hl j hz hj
  · intro j hj
    rw [hp, hd]
    exact h.directory j ((hu j).mp hj).1
  · exact (hu _).mpr ⟨h.current_used, hc.symm⟩
  · rw [hd]
    exact h.current_directory

theorem create_node (h : Sound fs) (path : Text) (i : Bool) :
    Sound (create_node fs path i).2 := by
  unfold ramfs.create_node
  split
  · exact h
  next p n hp =>
    split
    · exact h
    split
    · exact h
    next index hf =>
      have hu := List.find?_some hf
      obtain ⟨hus, hd⟩ := h.resolve_parent_used hp
      exact h.create (Bool.not_eq_true' _ ▸ hu) rfl hus hd

theorem fs_touch (h : Sound fs) (path : Text) : Sound (fs_touch fs path).2 := by
  unfold ramfs.fs_touch
  split
  · exact h
  · exact h.create_node path false

theorem fs_write (h : Sound fs) (path t : Text) (append : Bool) :
    Sound (fs_write fs path t append).2 := by
  unfold ramfs.fs_write
  split
  · exact h
  next index _ =>
    dsimp only
    split
    · exact h
    refine h.congr (fun i => ?_) rfl
    by_cases hi : i = index
    · simp [hi]
    · simp [setNode_ne fs _ hi]

theorem fs_chdir (h : Sound fs) (path : Text) : Sound (fs_chdir fs path).2 := by
  unfold ramfs.fs_chdir
  split
  · exact h
  next n hn =>
    split
    · exact h
    next hd => exact h.enter (h.resolve_used hn) (Bool.not_eq_false _ ▸ hd)

end Sound

/-! ## Removing -/

theorem fs_remove_spec (fs : Ramfs) (path : Text) :
    ((fs_remove fs path).1 ≠ 0 ∧ (fs_remove fs path).2 = fs) ∨
      ∃ i, resolve fs path = some i ∧ i ≠ 0 ∧
        ((fs.nodes i).is_directory = true → ∀ j, j ≠ 0 → (fs.nodes j).used = true → (fs.nodes j).parent ≠ i) ∧
        fs_remove fs path = (0, fs.setNode i { fs.nodes i with used := false }) := by
  unfold fs_remove
  split
  · exact Or.inl ⟨by simp, rfl⟩
  next i hi =>
    split
    · exact Or.inl ⟨by simp, rfl⟩
    next hr =>
      split
      · exact Or.inl ⟨by simp, rfl⟩
      next hl =>
        refine Or.inr ⟨i, hi, hr, fun hd j hj hu hp => hl ⟨hd, ?_⟩, rfl⟩
        refine List.any_eq_true.mpr ⟨j, mem_indices.mpr hj, ?_⟩
        simp [hu, hp]

theorem fs_remove_cases {fs : Ramfs} (h : Sound fs) (path : Text) :
    ((fs_remove fs path).1 ≠ 0 ∧ (fs_remove fs path).2 = fs) ∨
      ∃ i, resolve fs path = some i ∧ i ≠ 0 ∧
        (∀ j, j ≠ 0 → (fs.nodes j).used = true → (fs.nodes j).parent ≠ i) ∧
        fs_remove fs path = (0, fs.setNode i { fs.nodes i with used := false }) := by
  rcases fs_remove_spec fs path with hs | ⟨i, hi, hrt, hl, hr⟩
  · exact Or.inl hs
  · refine Or.inr ⟨i, hi, hrt, fun j hj hu hp => ?_, hr⟩
    exact hl (hp ▸ h.directory j hu) j hj hu hp

def RemovesCurrent (fs : Ramfs) : Call → Prop
  | .remove path => resolve fs path = some fs.current_directory ∧ (fs_remove fs path).1 = 0
  | _ => False

theorem Sound.call {fs : Ramfs} (h : Sound fs) {c : Call} (hcl : ¬ RemovesCurrent fs c) :
    Sound (fs.call c).2 := by
  cases c with
  | mkdir path => exact h.create_node path true
  | touch path => exact h.fs_touch path
  | write path t append => exact h.fs_write path t append
  | chdir path => exact h.fs_chdir path
  | remove path =>
    show Sound (fs_remove fs path).2
    rcases fs_remove_cases h path with ⟨_, hs⟩ | ⟨i, hi, hrt, hl, hr⟩
    · rwa [hs]
    · have hc : i ≠ fs.current_directory := fun he =>
        hcl ⟨by rw [hi, he], by rw [hr]⟩
      rw [hr]
      exact h.remove hrt hc hl

theorem not_tree_of_removesCurrent {fs : Ramfs} (h : Sound fs) {c : Call}
    (hc : RemovesCurrent fs c) : ¬ Tree (fs.call c).2 := by
  cases c with
  | remove path =>
    obtain ⟨hr, hz⟩ := hc
    rcases fs_remove_cases h path with ⟨hne, _⟩ | ⟨i, hi, _, _, hrm⟩
    · exact absurd hz hne
    · obtain rfl : i = fs.current_directory := Option.some.inj (hi.symm.trans hr)
      intro ht
      have hu := ht.current.1
      rw [show fs.call (.remove path) = fs_remove fs path from rfl, hrm] at hu
      simp [Ramfs.setNode] at hu
  | _ => exact hc.elim

/-! ## Runs -/

def AlwaysTree (fs : Ramfs) : List Call → Prop
  | [] => Tree fs
  | call :: calls => Tree fs ∧ AlwaysTree (fs.call call).2 calls

/-- No call of the run removes the directory that is the current one then. -/
def KeepsCurrent (fs : Ramfs) : List Call → Prop
  | [] => True
  | call :: calls => ¬ RemovesCurrent fs call ∧ KeepsCurrent (fs.call call).2 calls

theorem Sound.always_iff {fs : Ramfs} (h : Sound fs) (calls : List Call) :
    AlwaysTree fs calls ↔ KeepsCurrent fs calls := by
  induction calls generalizing fs with
  | nil => exact ⟨fun _ => trivial, fun _ => h.tree⟩
  | cons c calls ih =>
    by_cases hc : RemovesCurrent fs c
    · refine ⟨fun ha => absurd ?_ (not_tree_of_removesCurrent h hc), fun hk => absurd hc hk.1⟩
      cases calls with
      | nil => exact ha.2
      | cons _ _ => exact ha.2.1
    · have hr := ih (h.call hc)
      exact ⟨fun ha => ⟨hc, hr.mp ha.2⟩, fun hk => ⟨h.tree, hr.mpr hk.2⟩⟩

theorem Sound.run {fs : Ramfs} (h : Sound fs) {c : List Call} (hk : KeepsCurrent fs c) :
    Sound (fs.run c) := by
  induction c generalizing fs with
  | nil => exact h
  | cons cl c ih => exact ih (h.call hk.1) hk.2

theorem emptyTree_sound (old : Ramfs) : Sound (emptyTree old) := by
  have hu (i : Index) : ((emptyTree old).nodes i).used = true ↔ i = 0 := by grind [emptyTree]
  have hp : ((emptyTree old).nodes 0).parent = 0 := rfl
  refine ⟨⟨rfl, hp, ?_, ?_⟩, ?_, rfl, rfl⟩
  · grind
  · intro i hi
    exact ⟨0, (hu i).mp hi⟩
  · intro i hi
    rw [(hu i).mp hi]
    rfl

theorem fs_init_sound (old : Ramfs) : Sound (fs_init old) := by
  apply (emptyTree_sound old).run
  unfold initCalls
  simp only [KeepsCurrent, RemovesCurrent, not_false_eq_true, and_self]

/-- The file system is a tree after every call exactly when no call removes the
current directory. -/
theorem the_nodes_stay_a_tree_iff (old : Ramfs) (calls : List Call) :
    AlwaysTree (fs_init old) calls ↔ KeepsCurrent (fs_init old) calls :=
  (fs_init_sound old).always_iff calls

def zeroed : Ramfs where
  nodes _ := { used := false, is_directory := false, parent := 0, size := 0, name := [], data := fun _ => '\x00' }
  current_directory := 0

/-- `cd /tmp`, `rm .`, `mkdir x`: the new directory takes the node of the removed
one, which is still the current directory, and so is its own parent. -/
theorem a_directory_is_its_own_parent :
    ¬ AlwaysTree (fs_init zeroed) [.chdir "/tmp".toList, .remove ".".toList, .mkdir "x".toList] ∧
      let fs := (fs_init zeroed).run [.chdir "/tmp".toList, .remove ".".toList, .mkdir "x".toList]
      (fs.nodes 6).used = true ∧ (fs.nodes 6).parent = 6 := by
  constructor
  · rw [(fs_init_sound zeroed).always_iff]
    rintro ⟨_, hremove, _⟩
    exact hremove ⟨by decide +kernel, by decide +kernel⟩
  · decide +kernel

end mvh.ramfs
