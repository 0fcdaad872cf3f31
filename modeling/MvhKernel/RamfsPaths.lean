-- Paths of the file system in memory.
import MvhKernel.RamfsTree
import MvhKernel.Walks

open forest walks

namespace mvh.ramfs

/-! ## Segments -/

theorem string_equal_iff (left right : Text) : string_equal left right = true ↔ left = right := by
  induction left generalizing right with
  | nil => cases right <;> simp [string_equal]
  | cons c left ih =>
    cases right with
    | nil => simp [string_equal]
    | cons d right => grind [string_equal]

/-- The segments of a path, with the characters of the first one that are already read. -/
def segmentsFrom : Text → Text → List Text
  | [], segment => if segment = [] then [] else [segment]
  | c :: path, segment =>
    if c = '/' then (if segment = [] then [] else [segment]) ++ segmentsFrom path []
    else segmentsFrom path (segment ++ [c])

def segments (path : Text) : List Text := segmentsFrom path []

theorem segments_slash (path : Text) : segments ('/' :: path) = segments path := rfl

theorem segments_dropWhile (path : Text) : segments (path.dropWhile (· = '/')) = segments path := by
  induction path with
  | nil => rfl
  | cons c path ih =>
    by_cases hc : c = '/'
    · simp [List.dropWhile_cons_of_pos, ih, hc, segments_slash]
    · rw [List.dropWhile_cons_of_neg (by simpa using hc)]

theorem segmentsFrom_append_slash (path rest s : Text) :
    segmentsFrom (path ++ '/' :: rest) s = segmentsFrom path s ++ segments rest := by
  induction path generalizing s with
  | nil => rfl
  | cons c path ih =>
    rw [List.cons_append]
    unfold segmentsFrom
    grind

theorem segments_append_slash (path rest : Text) :
    segments (path ++ '/' :: rest) = segments path ++ segments rest :=
  segmentsFrom_append_slash path rest []

theorem segmentsFrom_name {name : Text} (s : Text) (hsl : '/' ∉ name) (hs : s ++ name ≠ []) :
    segmentsFrom name s = [s ++ name] := by
  induction name generalizing s with
  | nil =>
    rw [List.append_nil] at hs ⊢
    exact if_neg hs
  | cons c name ih => grind [List.append_assoc, segmentsFrom]

theorem segmentsFrom_first (path : Text) {s : Text} (hs : s ≠ []) :
    ∃ first o, segmentsFrom path s = first :: o ∧ s.length ≤ first.length := by
  induction path generalizing s with
  | nil => exact ⟨s, [], if_neg hs, Nat.le_refl _⟩
  | cons c path ih =>
    unfold segmentsFrom
    by_cases hc : c = '/'
    · simp [hc, hs]
    · rw [if_neg hc]
      obtain ⟨first, o, heq, hle⟩ := ih (List.append_ne_nil_of_right_ne_nil s (List.cons_ne_nil c []))
      grind

theorem resolve_segment_spec (path : Text) {s : Text} (hsm : s ≠ [])
    (hs : s.length < FS_NAME_MAX) :
    ∃ first o, segmentsFrom path s = first :: o ∧
      ((first.length < FS_NAME_MAX ∧ ∃ rest, resolve_segment path s = some (first, rest) ∧
          o = segments rest) ∨
        (FS_NAME_MAX ≤ first.length ∧ resolve_segment path s = none)) := by
  induction path generalizing s with
  | nil => exact ⟨s, [], if_neg hsm, .inl ⟨hs, [], rfl, rfl⟩⟩
  | cons c path ih =>
    unfold segmentsFrom resolve_segment
    by_cases hc : c = '/'
    · rw [if_pos hc, if_pos hc, if_neg hsm, hc]
      exact ⟨s, segments path, rfl, .inl ⟨hs, '/' :: path, rfl, rfl⟩⟩
    rw [if_neg hc, if_neg hc]
    have hm : s ++ [c] ≠ [] := by simp
    have hln : (s ++ [c]).length = s.length + 1 := List.length_append
    by_cases hl : s.length + 1 ≥ FS_NAME_MAX
    · rw [if_pos hl]
      obtain ⟨first, o, heq, hle⟩ := segmentsFrom_first path hm
      grind
    · grind

/-! ## The walk -/

def pathStep (fs : Ramfs) (node : Index) (segment : Text) : Option Index :=
  if FS_NAME_MAX ≤ segment.length then none
  else if segment = ['.'] then some node
  else if segment = ['.', '.'] then some (fs.nodes node).parent
  else if (fs.nodes node).is_directory = false then none
  else find_child fs node segment

def pathStart (fs : Ramfs) (path : Text) : Index :=
  if path.head? = some '/' then 0 else fs.current_directory

theorem resolve_loop_eq_walk (fs : Ramfs) (fuel : Nat) (node : Index) (path : Text) (h : path.length ≤ fuel) :
    resolve_loop fs fuel node path = walk (pathStep fs) node (segments path) := by
  induction fuel generalizing node path with
  | zero =>
    obtain rfl := List.eq_nil_of_length_eq_zero (Nat.le_zero.mp h)
    rfl
  | succ fuel ih =>
    rw [← segments_dropWhile]
    unfold resolve_loop
    cases hsk : path.dropWhile (· = '/') with
    | nil => rfl
    | cons c rest =>
      have hc := ne_slash_of_dropWhile hsk
      have hr : resolve_segment (c :: rest) [] = resolve_segment rest [c] := by
        have hrm : ¬ ([] : Text).length + 1 ≥ FS_NAME_MAX := by decide
        grind [resolve_segment]
      have hs : segments (c :: rest) = segmentsFrom rest [c] := if_neg hc
      obtain ⟨first, o, heq, hcs⟩ :=
        resolve_segment_spec rest (List.cons_ne_nil c []) (by decide : 1 < FS_NAME_MAX)
      rw [hs, heq, walk_cons]
      unfold pathStep
      dsimp only
      rcases hcs with ⟨hsh, left, hf, rfl⟩ | ⟨hln, hfa⟩
      · have hl : left.length ≤ fuel := by
          have hlt := resolve_segment_lt hsk (hr.trans hf)
          omega
        rw [hr, hf, if_neg (by omega)]
        simp only [string_equal_iff]
        by_cases hdt : first = ['.']
        · rw [if_pos hdt, if_pos hdt, ih node left hl]
          rfl
        rw [if_neg hdt, if_neg hdt]
        by_cases hd : first = ['.', '.']
        · rw [if_pos hd, if_pos hd, ih _ left hl]
          rfl
        rw [if_neg hd, if_neg hd]
        by_cases hfl : (fs.nodes node).is_directory = false
        · simp [hfl]
        rw [if_neg hfl, if_neg hfl]
        cases hch : find_child fs node first with
        | none => rfl
        | some child => exact ih child left hl
      simp [hr, hfa, hln]

theorem resolve_eq_walk (fs : Ramfs) (path : Text) :
    resolve fs path = walk (pathStep fs) (pathStart fs path) (segments path) := by
  unfold resolve pathStart
  dsimp only
  by_cases hs : path.head? = some '/'
  · obtain ⟨rest, rfl⟩ : ∃ rest, path = '/' :: rest := by
      cases path with
      | nil => cases hs
      | cons c rest => exact ⟨rest, by rw [Option.some.inj hs]⟩
    simp [hs, resolve_loop_eq_walk, segments_slash]
  simp [hs, resolve_loop_eq_walk]

/-! ## The parent and the name -/

theorem resolve_parent_split_spec (path : Text) (n : Nat) :
    resolve_parent_split path n ≤ n ∧
      (∀ j, resolve_parent_split path n ≤ j → j < n → path[j]? ≠ some '/') ∧
      (resolve_parent_split path n ≠ 0 → path[resolve_parent_split path n - 1]? = some '/') := by
  induction n with
  | zero => exact ⟨Nat.le_refl 0, fun j _ hj => absurd hj (Nat.not_lt_zero j), fun hne => absurd rfl hne⟩
  | succ n ih => grind [resolve_parent_split]

theorem not_slash_mem_drop {path : Text} {split : Nat}
    (h : ∀ j, split ≤ j → j < path.length → path[j]? ≠ some '/') : '/' ∉ path.drop split := by
  intro hm
  obtain ⟨k, hk, hg⟩ := List.getElem_of_mem hm
  rw [List.length_drop] at hk
  refine h (split + k) (by omega) (by omega) ?_
  grind

theorem cut_at_slash {path : Text} {split : Nat} (hne : split ≠ 0) (h : path[split - 1]? = some '/') :
    path = path.take (split - 1) ++ '/' :: path.drop split := by
  obtain ⟨hlt, hg⟩ := List.getElem?_eq_some_iff.mp h
  have hd : path.drop (split - 1) = '/' :: path.drop split := by
    grind [List.drop_eq_getElem_cons, Nat.sub_add_cancel]
  rw [← hd, List.take_append_drop]

/-- What `resolve_parent` gives: the last segment is the name, and the others lead to the parent. -/
structure ParentOf (fs : Ramfs) (path : Text) (parent : Index) (name : Text) : Prop where
  walk : ∃ front, segments path = front ++ [name] ∧
    walk (pathStep fs) (pathStart fs path) front = some parent
  directory : parent = fs.current_directory ∨ (fs.nodes parent).is_directory = true
  short : name.length < FS_NAME_MAX
  no_dot : name ≠ ['.']
  no_dots : name ≠ ['.', '.']

theorem resolve_parent_spec {fs : Ramfs} {path name : Text} {parent : Index}
    (h : resolve_parent fs path = some (parent, name)) : ParentOf fs path parent name := by
  unfold resolve_parent at h
  dsimp only at h
  split at h
  · contradiction
  obtain ⟨hle, hc, hat⟩ := resolve_parent_split_spec path path.length
  generalize resolve_parent_split path path.length = split at h hle hc hat
  split at h
  · contradiction
  next hln =>
  obtain ⟨hsm, hsh⟩ := not_or.mp hln
  split at h
  · contradiction
  next hd =>
  simp only [string_equal_iff, not_or] at hd
  have hn : path.drop split ≠ [] := by
    rw [ne_eq, List.drop_eq_nil_iff]
    omega
  have hl : segments (path.drop split) = [path.drop split] :=
    segmentsFrom_name [] (not_slash_mem_drop hc) hn
  have hl1 : (path.drop split).length < FS_NAME_MAX := by
    rw [List.length_drop]
    omega
  split at h
  next hz =>
    obtain ⟨rfl, rfl⟩ := Prod.mk.inj (Option.some.inj h)
    subst hz
    rw [List.drop_zero] at hn hl hl1 hd ⊢
    refine ⟨⟨[], hl, ?_⟩, .inl rfl, hl1, hd.1, hd.2⟩
    have hh : path.head? ≠ some '/' := by grind [List.head?_eq_getElem?]
    rw [walk_nil, pathStart, if_neg hh]
  next hne =>
    have hct := cut_at_slash hne (hat hne)
    split at h
    · contradiction
    next r hr =>
    split at h
    · contradiction
    next hdr =>
    obtain ⟨rfl, rfl⟩ := Prod.mk.inj (Option.some.inj h)
    refine ⟨⟨segments (path.take (split - 1)), ?_, ?_⟩, .inr (Bool.not_eq_false _ ▸ hdr), hl1,
      hd.1, hd.2⟩
    · grind [segments_append_slash]
    · rw [resolve_eq_walk] at hr
      by_cases ho : split = 1
      · subst ho
        have hh : path.head? = some '/' := by
          rw [hct]
          rfl
        have hrt : pathStart fs path = pathStart fs ['/'] := by simp [pathStart, hh]
        rw [if_pos rfl] at hr
        rw [hrt]
        exact hr
      · have hs : pathStart fs (path.take (split - 1)) = pathStart fs path := by
          grind [pathStart, List.head?_take]
        simpa [ho, hs] using hr

/-! ## A new node -/

section
variable {fs : Ramfs}

/-- The nodes in use are a tree, and the current directory is one of its directories. -/
structure Standing (fs : Ramfs) : Prop where
  rooted : Rooted 0 (fun i => (fs.nodes i).parent) fun i => (fs.nodes i).used = true
  current_used : (fs.nodes fs.current_directory).used = true
  current_directory : (fs.nodes fs.current_directory).is_directory = true

theorem Standing.start_used (h : Standing fs) (path : Text) : (fs.nodes (pathStart fs path)).used = true := by
  unfold pathStart
  split
  · exact h.rooted.root_used
  · exact h.current_used

theorem Standing.step_used (h : Standing fs) (node : Index) (s : Text) (next : Index)
    (hn : (fs.nodes node).used = true) (hs : pathStep fs node s = some next) :
    (fs.nodes next).used = true := by
  unfold pathStep at hs
  split at hs
  · contradiction
  split at hs
  · exact Option.some.inj hs ▸ hn
  split at hs
  · exact Option.some.inj hs ▸ h.rooted.closed node hn
  grind [find_child_eq_some]

/-- The search for a child looks at the nodes in use with this parent and this name. -/
def IsChild (fs : Ramfs) (parent : Index) (name : Text) (index : Index) : Prop :=
  (fs.nodes index).used = true ∧ (fs.nodes index).parent = parent ∧ (fs.nodes index).name = name

theorem isChild_iff (fs : Ramfs) (parent : Index) (name : Text) (index : Index) :
    ((fs.nodes index).used && (fs.nodes index).parent == parent &&
      string_equal (fs.nodes index).name name) = true ↔ IsChild fs parent name index := by
  rw [Bool.and_eq_true, Bool.and_eq_true, beq_iff_eq, string_equal_iff, and_assoc]
  rfl

theorem find_child_isChild {parent child : Index} {name : Text} (h : find_child fs parent name = some child) :
    child ≠ 0 ∧ IsChild fs parent name child := by
  have hf := List.find?_some h
  exact ⟨mem_indices.mp (List.mem_of_find?_eq_some h), (isChild_iff fs parent name child).mp hf⟩

theorem find_child_eq_none {parent : Index} {name : Text} :
    find_child fs parent name = none ↔ ∀ index, index ≠ 0 → ¬ IsChild fs parent name index := by
  unfold find_child
  rw [List.find?_eq_none]
  constructor
  · intro h index hi hc
    exact h index (mem_indices.mpr hi) ((isChild_iff fs parent name index).mpr hc)
  · intro h index hi hf
    exact h index (mem_indices.mp hi) ((isChild_iff fs parent name index).mp hf)

theorem find_child_only {parent child : Index} {name : Text} (hne : child ≠ 0)
    (hc : IsChild fs parent name child)
    (hon : ∀ index, index ≠ 0 → IsChild fs parent name index → index = child) :
    find_child fs parent name = some child := by
  cases hf : find_child fs parent name with
  | none => exact absurd hc (find_child_eq_none.mp hf child hne)
  | some o =>
    obtain ⟨ho, hs⟩ := find_child_isChild hf
    rw [hon o ho hs]

theorem find?_without {α : Type} {p p' : α → Bool} {gone : α} (h : ∀ x, p' x = true ↔ p x = true ∧ x ≠ gone)
    {l : List α} (hne : l.find? p ≠ some gone) : l.find? p' = l.find? p := by
  induction l with
  | nil => rfl
  | cons x l ih => grind

/-- A free node that becomes a child of a directory. -/
structure NewChild (fs : Ramfs) (parent : Index) (name : Text) (index : Index) (node : Node) : Prop where
  nonzero : index ≠ 0
  free : (fs.nodes index).used = false
  fresh : find_child fs parent name = none
  used : node.used = true
  linked : node.parent = parent
  named : node.name = name
  no_dot : name ≠ ['.']
  no_dots : name ≠ ['.', '.']

variable {parent index : Index} {name : Text} {node : Node}

theorem NewChild.isChild_iff (h : NewChild fs parent name index node) (p : Index) (n : Text) (i : Index) :
    IsChild (fs.setNode index node) p n i ↔ IsChild fs p n i ∨ (i = index ∧ parent = p ∧ name = n) := by
  unfold IsChild
  by_cases hi : i = index
  · subst hi
    rw [setNode_same, h.used, h.linked, h.named, h.free]
    simp
  simp [setNode_ne, hi]

theorem NewChild.step (h : NewChild fs parent name index node) (i : Index) (s : Text) (next : Index)
    (hi : (fs.nodes i).used = true) (hs : pathStep fs i s = some next) :
    pathStep (fs.setNode index node) i s = some next := by
  have hne : i ≠ index := by
    rintro rfl
    rw [h.free] at hi
    contradiction
  unfold pathStep at hs ⊢
  rw [setNode_ne fs node hne]
  by_cases hl : FS_NAME_MAX ≤ s.length
  · grind
  rw [if_neg hl] at hs ⊢
  by_cases hdt : s = ['.']
  · simpa [hdt] using hs
  rw [if_neg hdt] at hs ⊢
  by_cases hd : s = ['.', '.']
  · simpa [hd] using hs
  rw [if_neg hd] at hs ⊢
  by_cases hf : (fs.nodes i).is_directory = false
  · grind
  rw [if_neg hf] at hs ⊢
  -- a child with this name was there, so the new node is not another one
  have ho : ¬ (parent = i ∧ name = s) := by
    rintro ⟨rfl, rfl⟩
    rw [h.fresh] at hs
    contradiction
  rw [← hs]
  unfold find_child
  congr 1
  funext j
  rw [Bool.eq_iff_iff, ramfs.isChild_iff, ramfs.isChild_iff, h.isChild_iff]
  simp [ho]

theorem NewChild.found (h : NewChild fs parent name index node) (hp : (fs.nodes parent).used = true)
    (hd : (fs.nodes parent).is_directory = true) (hs : name.length < FS_NAME_MAX) :
    pathStep (fs.setNode index node) parent name = some index := by
  have hne : parent ≠ index := by
    rintro rfl
    rw [h.free] at hp
    contradiction
  unfold pathStep
  rw [if_neg (by omega), if_neg h.no_dot, if_neg h.no_dots, setNode_ne fs node hne, hd,
    if_neg (by decide)]
  refine find_child_only h.nonzero ((h.isChild_iff _ _ _).mpr (.inr ⟨rfl, rfl, rfl⟩)) fun o ho hc => ?_
  rcases (h.isChild_iff _ _ _).mp hc with hold | ⟨hn, -, -⟩
  · exact absurd hold (find_child_eq_none.mp h.fresh o ho)
  · exact hn

theorem create_node_cases (fs : Ramfs) (path : Text) (i : Bool) :
    (create_node fs path i).2 = fs ∨
      ∃ parent name index node, ParentOf fs path parent name ∧ NewChild fs parent name index node ∧
        (node.is_directory = i ∧ node.size = 0 ∧ node.data 0 = '\x00') ∧
        (create_node fs path i).2 = fs.setNode index node := by
  unfold create_node
  split
  · exact .inl rfl
  next parent name hp =>
  have hof := resolve_parent_spec hp
  split
  · exact .inl rfl
  next hfr =>
  split
  · exact .inl rfl
  next index hf =>
  have hu : (fs.nodes index).used = false := by
    have hfn := List.find?_some hf
    exact Bool.not_eq_true' _ ▸ hfn
  have hc : string_copy name FS_NAME_MAX = name := by
    have hs := hof.short
    exact List.take_of_length_le (by omega)
  exact .inr ⟨parent, name, index, _, hof,
    ⟨mem_indices.mp (List.mem_of_find?_eq_some hf), hu, Option.not_isSome_iff_eq_none.mp hfr, rfl, rfl,
      hc, hof.no_dot, hof.no_dots⟩, ⟨rfl, rfl, rfl⟩, rfl⟩

/-- The path leads to the node that was created for it, and no other path leads elsewhere. -/
structure Created (fs after : Ramfs) (path : Text) (is_directory : Bool) (index : Index) : Prop where
  found : resolve after path = some index
  kind : (after.nodes index).is_directory = is_directory
  others : ∀ other node, resolve fs other = some node → resolve after other = some node

theorem NewChild.created (h : NewChild fs parent name index node) (hs : Standing fs) {path : Text}
    (hof : ParentOf fs path parent name) :
    Created fs (fs.setNode index node) path node.is_directory index := by
  have ho : ∀ s l stop, (fs.nodes s).used = true → walk (pathStep fs) s l = some stop →
      walk (pathStep (fs.setNode index node)) s l = some stop :=
    fun _ _ _ => walk_mono hs.step_used h.step
  refine ⟨?_, by rw [setNode_same], fun o fn hf => ?_⟩
  · obtain ⟨f, hsg, hw⟩ := hof.walk
    have hst := hs.start_used path
    have hp := walk_keeps hs.step_used hst hw
    have hd : (fs.nodes parent).is_directory = true := by
      rcases hof.directory with rfl | hd
      · exact hs.current_directory
      · exact hd
    rw [resolve_eq_walk, hsg, walk_append]
    have hfr : walk (pathStep (fs.setNode index node)) (pathStart (fs.setNode index node) path) f =
        some parent := ho _ _ _ hst hw
    rw [hfr]
    show walk _ parent [name] = some index
    rw [walk_cons, h.found hp hd hof.short]
    rfl
  · rw [resolve_eq_walk] at hf ⊢
    exact ho _ _ _ (hs.start_used o) hf

theorem Standing.create_node (h : Standing fs) (path : Text) (ir : Bool) {index : Index}
    (hf : (fs.nodes index).used = false)
    (hu : ((create_node fs path ir).2.nodes index).used = true) :
    Created fs (create_node fs path ir).2 path ir index := by
  rcases create_node_cases fs path ir with hs | ⟨parent, name, i, node, hof, hn, ⟨hk, -⟩, ha⟩
  · grind
  · rw [ha] at hu ⊢
    obtain rfl : index = i := by grind [setNode_ne]
    rw [← hk]
    exact hn.created h hof

theorem Standing.fs_touch (h : Standing fs) (path : Text) {index : Index} (hf : (fs.nodes index).used = false)
    (hu : ((fs_touch fs path).2.nodes index).used = true) :
    Created fs (fs_touch fs path).2 path false index := by
  unfold ramfs.fs_touch at hu ⊢
  split at hu
  · rw [hf] at hu
    contradiction
  next hn =>
    exact h.create_node path false hf hu

/-! ## A removed node -/

def Distinct (fs : Ramfs) : Prop :=
  ∀ i j, i ≠ 0 → j ≠ 0 → (fs.nodes i).used = true → (fs.nodes j).used = true →
    (fs.nodes i).parent = (fs.nodes j).parent → (fs.nodes i).name = (fs.nodes j).name → i = j

def without (fs : Ramfs) (gone : Index) : Ramfs := fs.setNode gone { fs.nodes gone with used := false }

variable {gone : Index}

theorem isChild_without (p : Index) (n : Text) (i : Index) :
    IsChild (without fs gone) p n i ↔ IsChild fs p n i ∧ i ≠ gone := by
  unfold IsChild without
  grind [setNode_same, setNode_ne]

theorem step_without (i : Index) (segment : Text) (hi : i ≠ gone) (hs : pathStep fs i segment ≠ some gone) :
    pathStep (without fs gone) i segment = pathStep fs i segment := by
  have hn : (without fs gone).nodes i = fs.nodes i := setNode_ne fs _ hi
  unfold pathStep at hs ⊢
  rw [hn]
  split
  · rfl
  split
  · rfl
  split
  · rfl
  split
  · rfl
  rename_i hl hdt hd hf
  rw [if_neg hl, if_neg hdt, if_neg hd, if_neg hf] at hs
  refine find?_without (fun j => ?_) hs
  rw [isChild_iff, isChild_iff, isChild_without]

/-- The parents of the node are directories all the way up, as for every node that a walk from the
root gets to. -/
def Entered (fs : Ramfs) (i : Index) : Prop :=
  ∀ k, (fun i => (fs.nodes i).parent)^[k] i ≠ 0 →
    (fs.nodes ((fun i => (fs.nodes i).parent)^[k + 1] i)).is_directory = true

theorem entered_root (h : (fs.nodes 0).parent = 0) : Entered fs 0 := by
  intro k hk
  exact absurd (Function.iterate_fixed h k) hk

theorem entered_step (i : Index) (s : Text) (next : Index) (h : Entered fs i)
    (hs : pathStep fs i s = some next) : Entered fs next := by
  unfold pathStep at hs
  split at hs
  · contradiction
  split at hs
  · exact Option.some.inj hs ▸ h
  split at hs
  · obtain rfl := Option.some.inj hs
    exact fun k hk => h (k + 1) hk
  split at hs
  · contradiction
  next hd =>
    have hp := (find_child_eq_some hs).2.2
    intro k hk
    cases k with
    | zero => simpa [hp] using Bool.not_eq_false _ ▸ hd
    | succ k =>
      rw [Function.iterate_succ_apply, hp] at hk ⊢
      exact h k hk

theorem Distinct.step_lost (h : Distinct fs) (hr : (fs.nodes 0).parent = 0) (hg : gone ≠ 0)
    (hlf : (fs.nodes gone).is_directory = true →
      ∀ j, j ≠ 0 → (fs.nodes j).used = true → (fs.nodes j).parent ≠ gone)
    (i : Index) (s : Text) (hk : (fs.nodes i).used = true ∧ Entered fs i) (hi : i ≠ gone)
    (hs : pathStep fs i s = some gone) : pathStep (without fs gone) i s = none := by
  have hn : (without fs gone).nodes i = fs.nodes i := setNode_ne fs _ hi
  unfold pathStep at hs ⊢
  rw [hn]
  by_cases hl : FS_NAME_MAX ≤ s.length
  · exact if_pos hl
  rw [if_neg hl] at hs ⊢
  by_cases hdt : s = ['.']
  · grind
  rw [if_neg hdt] at hs ⊢
  by_cases hd : s = ['.', '.']
  · rw [if_pos hd] at hs
    have hne : i ≠ 0 := by grind
    have hdr : (fs.nodes (fs.nodes i).parent).is_directory = true := hk.2 0 hne
    grind
  rw [if_neg hd] at hs ⊢
  by_cases hf : (fs.nodes i).is_directory = false
  · exact if_pos hf
  rw [if_neg hf] at hs ⊢
  obtain ⟨-, hu, hp, hnm⟩ := find_child_isChild hs
  refine find_child_eq_none.mpr fun o ho hc => ?_
  obtain ⟨⟨hu', hp', hn'⟩, hne⟩ := (isChild_without _ _ _).mp hc
  exact hne (h o gone ho hg hu' hu (hp'.trans hp.symm) (hn'.trans hnm.symm))

def pathVisits (fs : Ramfs) (path : Text) : List Index :=
  visits (pathStep fs) (pathStart fs path) (segments path)

/-- An absolute path to a node leads nowhere when it is removed, and a path that does not pass
through it leads where it did. -/
structure Removed (fs after : Ramfs) (path : Text) (gone : Index) : Prop where
  found : resolve fs path = some gone
  lost : path.head? = some '/' → resolve after path = none
  others : ∀ other, gone ∉ pathVisits fs other → resolve after other = resolve fs other

theorem Standing.fs_remove (h : Standing fs) (hd : Distinct fs) (path : Text)
    (hz : (fs_remove fs path).1 = 0) : ∃ gone, Removed fs (fs_remove fs path).2 path gone := by
  rcases fs_remove_spec fs path with ⟨hne, -⟩ | ⟨gone, hf, hg, hl, hr⟩
  · exact absurd hz hne
  have haf : (ramfs.fs_remove fs path).2 = without fs gone := congrArg Prod.snd hr
  rw [haf]
  refine ⟨gone, hf, fun ha => ?_, fun o ho => ?_⟩
  · have hst : pathStart fs path = 0 := if_pos ha
    have hs' : pathStart (without fs gone) path = 0 := if_pos ha
    rw [resolve_eq_walk, hst] at hf
    rw [resolve_eq_walk, hs']
    have hrt : (fs.nodes 0).parent = 0 := h.rooted.root_parent
    refine walk_blocked (fun i => (fs.nodes i).used = true ∧ Entered fs i)
      (fun i s next hk hs =>
        ⟨h.step_used i s next hk.1 hs, entered_step i s next hk.2 hs⟩)
      (fun i s next _ hi hn hs => ?_) (hd.step_lost hrt hg hl)
      ⟨h.rooted.root_used, entered_root hrt⟩ hg.symm hf
    grind [step_without]
  · rw [resolve_eq_walk, resolve_eq_walk]
    exact walk_congr (fun i s hi hs => step_without i s hi hs) ho

/-! ## Names stay distinct -/

theorem NewChild.distinct (h : NewChild fs parent name index node) (hd : Distinct fs) :
    Distinct (fs.setNode index node) := by
  -- another child of the parent with the new name was not there
  have hf : ∀ j, j ≠ 0 → j ≠ index → ((fs.setNode index node).nodes j).used = true →
      ((fs.setNode index node).nodes j).parent = parent → ((fs.setNode index node).nodes j).name ≠ name := by
    intro j hj hne hu hp hn
    rw [setNode_ne fs node hne] at hu hp hn
    exact find_child_eq_none.mp h.fresh j hj ⟨hu, hp, hn⟩
  intro i j hi hj hu hu' hp hn
  by_cases hnw : i = index
  · by_cases hn' : j = index
    · rw [hnw, hn']
    · rw [hnw, setNode_same, h.linked] at hp
      rw [hnw, setNode_same, h.named] at hn
      grind
  · by_cases hn' : j = index
    · rw [hn', setNode_same, h.linked] at hp
      rw [hn', setNode_same, h.named] at hn
      exact absurd hn (hf i hi hnw hu hp)
    · rw [setNode_ne fs node hnw] at hu hp hn
      rw [setNode_ne fs node hn'] at hu' hp hn
      exact hd i j hi hj hu hu' hp hn

theorem Distinct.congr {after : Ramfs} (h : Distinct fs)
    (hn : ∀ i, (after.nodes i).used = true → (fs.nodes i).used = true ∧
      (after.nodes i).parent = (fs.nodes i).parent ∧ (after.nodes i).name = (fs.nodes i).name) :
    Distinct after := by
  intro i j hi hj hu hu' hpr hna
  obtain ⟨hold, hp, hnm⟩ := hn i hu
  obtain ⟨ho', hp', hn'⟩ := hn j hu'
  rw [hp, hp'] at hpr
  rw [hnm, hn'] at hna
  exact h i j hi hj hold ho' hpr hna

theorem Distinct.create_node (h : Distinct fs) (path : Text) (ir : Bool) :
    Distinct (create_node fs path ir).2 := by
  rcases create_node_cases fs path ir with hs | ⟨parent, name, i, node, -, hn, -, ha⟩
  · rw [hs]
    exact h
  · rw [ha]
    exact hn.distinct h

theorem Distinct.call (h : Distinct fs) (c : Call) : Distinct (fs.call c).2 := by
  cases c with
  | mkdir path => exact h.create_node path true
  | touch path =>
    show Distinct (ramfs.fs_touch fs path).2
    unfold ramfs.fs_touch
    split
    · exact h
    · exact h.create_node path false
  | write path t append =>
    show Distinct (ramfs.fs_write fs path t append).2
    unfold ramfs.fs_write
    split
    · exact h
    next index _ =>
      dsimp only
      split
      · exact h
      refine h.congr fun i hi => ?_
      grind [setNode_same, setNode_ne]
  | chdir path =>
    show Distinct (ramfs.fs_chdir fs path).2
    unfold ramfs.fs_chdir
    split
    · exact h
    split
    · exact h
    · exact h
  | remove path =>
    show Distinct (ramfs.fs_remove fs path).2
    rcases fs_remove_spec fs path with ⟨-, hs⟩ | ⟨gone, -, -, -, hr⟩
    · rw [hs]
      exact h
    · rw [hr]
      refine h.congr fun i hi => ?_
      grind [setNode_same, setNode_ne]

theorem Distinct.run (h : Distinct fs) (c : List Call) : Distinct (fs.run c) := by
  induction c generalizing fs with
  | nil => exact h
  | cons cl c ih => exact ih (h.call cl)

theorem emptyTree_distinct (old : Ramfs) : Distinct (emptyTree old) := by
  intro i j hi _ hu
  grind [emptyTree]

end

/-- Where the nodes in use are a tree and no directory has two children with one name, a node that is
created is found at its path, a node that is removed is not, and other paths lead where they did.
No run of calls gives two children one name. -/
theorem paths_agree :
    (∀ old calls, Distinct ((fs_init old).run calls)) ∧
    ∀ fs, Standing fs → Distinct fs → ∀ path,
      (∀ index, (fs.nodes index).used = false → ((fs_mkdir fs path).2.nodes index).used = true →
        Created fs (fs_mkdir fs path).2 path true index) ∧
      (∀ index, (fs.nodes index).used = false → ((fs_touch fs path).2.nodes index).used = true →
        Created fs (fs_touch fs path).2 path false index) ∧
      ((fs_remove fs path).1 = 0 → ∃ gone, Removed fs (fs_remove fs path).2 path gone) := by
  refine ⟨fun old calls => ((emptyTree_distinct old).run initCalls).run calls, fun fs h hdistinct path => ?_⟩
  exact ⟨fun index hfree hused => h.create_node path true hfree hused,
    fun index hfree hused => h.fs_touch path hfree hused, h.fs_remove hdistinct path⟩

theorem Sound.standing {fs : Ramfs} (h : Sound fs) : Standing fs :=
  ⟨h.rooted, h.current_used, h.current_directory⟩

/-- A new file is found below the root, and it is not found when it is removed. -/
theorem a_file_comes_and_goes :
    let fs := emptyTree zeroed
    let after := (fs_touch fs "/..//a".toList).2
    Created fs after "/..//a".toList false 1 ∧
      ∃ gone, Removed after (fs_remove after "/./a/".toList).2 "/./a/".toList gone := by
  have hempty := emptyTree_sound zeroed
  have hagree := paths_agree.2 _ hempty.standing (emptyTree_distinct zeroed)
  have hagree' := paths_agree.2 _ (hempty.fs_touch "/..//a".toList).standing
    ((emptyTree_distinct zeroed).call (.touch "/..//a".toList))
  exact ⟨(hagree _).2.1 1 (by decide +kernel) (by decide +kernel), (hagree' _).2.2 (by decide +kernel)⟩

/-- Two files of the root with the same name. -/
def twins : Ramfs where
  nodes i :=
    { used := i ≤ 2
      is_directory := i = 0
      parent := 0
      size := 0
      name := if i = 0 then [] else ['a']
      data := fun _ => '\x00' }
  current_directory := 0

/-- When one of two files with the same name is removed, its path leads to the other one. -/
theorem a_twin_is_still_found :
    Standing twins ∧ (fs_remove twins "/a".toList).1 = 0 ∧
      resolve (fs_remove twins "/a".toList).2 "/a".toList = some 2 := by
  refine ⟨⟨⟨rfl, rfl, fun i _ => rfl, fun i _ => ⟨1, rfl⟩⟩, rfl, rfl⟩, ?_, ?_⟩
  · decide +kernel
  · decide +kernel

end mvh.ramfs
