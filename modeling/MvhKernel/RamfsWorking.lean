-- The working directory of the file system in memory: `fs_pwd` goes up along the parents
-- and prints their names, and `fs_chdir` goes down along the names.
import MvhKernel.RamfsContents

open forest walks c_strings

namespace mvh.ramfs

/-! ## Printing a path -/

def joined : List Text → Text
  | [] => []
  | [name] => name
  | name :: other :: names => name ++ '/' :: joined (other :: names)

def absolutePath (names : List Text) : Text := '/' :: joined names

theorem segments_joined {names : List Text} (h : ∀ n ∈ names, ValidName n) : segments (joined names) = names := by
  induction names with
  | nil => rfl
  | cons n names ih =>
    have hn := h n List.mem_cons_self
    have hf : segments n = [n] :=
      segmentsFrom_name [] hn.no_slash (List.ne_nil_of_length_pos hn.nonempty)
    cases names with
    | nil => exact hf
    | cons o names =>
      have hr := ih fun o ho => h o (List.mem_cons_of_mem _ ho)
      grind [joined, segments_append_slash]

theorem joined_clean {names : List Text} (h : ∀ n ∈ names, ValidName n) : '\x00' ∉ joined names := by
  induction names with
  | nil => exact List.not_mem_nil
  | cons n names ih =>
    have hn := h n List.mem_cons_self
    cases names with
    | nil => exact hn.clean
    | cons o names =>
      have hr := ih fun o ho => h o (List.mem_cons_of_mem _ ho)
      rw [joined, List.mem_append, List.mem_cons, not_or, not_or]
      exact ⟨hn.clean, by decide, hr⟩

theorem length_le_joined (nm : Text) (n : List Text) : nm.length ≤ (joined (nm :: n)).length := by
  cases n with
  | nil => exact Nat.le_refl _
  | cons o n =>
    rw [joined, List.length_append]
    omega

theorem fs_pwd_copy_begins (n b : Text) (o : Nat → Char) (h : Begins o b) :
    Begins (fs_pwd_copy n b.length o) (b ++ n) := by
  induction n generalizing b o with
  | nil =>
    rw [List.append_nil]
    exact h
  | cons c n ih =>
    have hn := ih (b ++ [c]) _ (h.snoc c)
    rw [List.length_append, List.append_assoc] at hn
    exact hn

theorem fs_pwd_loop_spec (fs : Ramfs) (capacity : Nat) (c : List Index) (b : Text) (o : Nat → Char)
    (h : Begins o b) (hc : '\x00' ∉ b ++ joined (c.map fun i => (fs.nodes i).name)) :
    let w := b ++ joined (c.map fun i => (fs.nodes i).name)
    let after := fs_pwd_loop fs capacity c b.length o
    (after.1 = 0 ↔ c = [] ∨ w.length + 1 < capacity) ∧ (after.1 = 0 → Spells after.2 w) := by
  induction c generalizing b o with
  | nil =>
    rw [List.map_nil, joined, List.append_nil] at hc ⊢
    exact ⟨iff_of_true rfl (Or.inl rfl), fun _ => h.finish hc⟩
  | cons n c ih =>
    intro w after
    have hcp := fs_pwd_copy_begins (fs.nodes n).name b o h
    have hl : (b ++ (fs.nodes n).name).length = b.length + (fs.nodes n).name.length :=
      List.length_append
    have hle : b.length + (fs.nodes n).name.length ≤ w.length := by grind [length_le_joined]
    by_cases hf : b.length + (fs.nodes n).name.length + 1 ≥ capacity
    · have ha : after = (-1, o) := if_pos hf
      grind
    cases c with
    | nil =>
      have ha : after = (0, Function.update (fs_pwd_copy (fs.nodes n).name b.length o)
          (b.length + (fs.nodes n).name.length) '\x00') := if_neg hf
      rw [ha]
      have hft : w.length + 1 < capacity := by
        show (b ++ (fs.nodes n).name).length + 1 < capacity
        omega
      refine ⟨iff_of_true rfl (Or.inr hft), fun _ => ?_⟩
      rw [← hl]
      exact hcp.finish hc
    | cons ot rest =>
      have hs : w = b ++ (fs.nodes n).name ++ ['/'] ++
          joined ((ot :: rest).map fun i => (fs.nodes i).name) := by
        show b ++ ((fs.nodes n).name ++ '/' :: _) = _
        simp
      have ha : after = fs_pwd_loop fs capacity (ot :: rest)
          (b ++ (fs.nodes n).name ++ ['/']).length
          (Function.update (fs_pwd_copy (fs.nodes n).name b.length o)
            (b ++ (fs.nodes n).name).length '/') := by
        rw [List.length_append, List.length_singleton, hl]
        exact if_neg hf
      have hn := ih (b ++ (fs.nodes n).name ++ ['/']) _ (hcp.snoc '/') (by rw [← hs]; exact hc)
      grind

theorem fs_pwd_chain_eq {fs : Ramfs} {i : Index} {nodes : List Index}
    (h : Way 0 (fun i => (fs.nodes i).parent) i nodes) (left : Nat) (hl : nodes.length ≤ left)
    (chain : List Index) : fs_pwd_chain fs left i chain = nodes ++ chain := by
  induction h generalizing left chain with
  | root =>
    cases left with
    | zero => rfl
    | succ left => exact if_pos rfl
  | @down i above hne _ ih =>
    rw [List.length_append, List.length_singleton] at hl
    obtain ⟨left, rfl⟩ : ∃ n, left = n + 1 := ⟨left - 1, by omega⟩
    grind [fs_pwd_chain, List.append_assoc]

theorem fs_pwd_spec {fs : Ramfs} {nodes : List Index}
    (hway : Way 0 (fun i => (fs.nodes i).parent) fs.current_directory nodes)
    (hcl : '\x00' ∉ absolutePath (nodes.map fun i => (fs.nodes i).name)) (o : Nat → Char) (c : UInt32) :
    let path := absolutePath (nodes.map fun i => (fs.nodes i).name)
    ((fs_pwd fs o c).1 = 0 ↔
      2 ≤ c.toNat ∧ (nodes = [] ∨ path.length + 1 < c.toNat)) ∧
    ((fs_pwd fs o c).1 = 0 → Spells (fs_pwd fs o c).2 path) := by
  intro path
  have hl : nodes.length ≤ FS_NODE_MAX := (hway.length_lt.trans_eq (Fintype.card_fin _)).le
  have hc := fs_pwd_chain_eq hway FS_NODE_MAX hl []
  rw [List.append_nil] at hc
  unfold fs_pwd
  by_cases hs : c < 2
  · have hls : c.toNat < 2 := UInt32.lt_iff_toNat_lt.mp hs
    grind
  · have hm : 2 ≤ c.toNat := UInt32.le_iff_toNat_le.mp (UInt32.not_lt.mp hs)
    have hst : Begins (Function.update o 0 '/') ['/'] := (begins_nil o).snoc '/'
    have hlp := fs_pwd_loop_spec fs c.toNat nodes ['/'] _ hst hcl
    rw [if_neg hs, hc]
    rw [show ['/'] ++ joined (nodes.map fun i => (fs.nodes i).name) = path from rfl] at hlp
    grind

/-! ## Going back -/

/-- Names are valid, and no directory has two children with one name. -/
structure WellNamed (fs : Ramfs) : Prop where
  names : ∀ i, i ≠ 0 → (fs.nodes i).used = true → ValidName (fs.nodes i).name
  distinct : Distinct fs

def CanonicalPath (fs : Ramfs) (path : Text) : Prop :=
  ∃ nodes, Way 0 (fun i => (fs.nodes i).parent) fs.current_directory nodes ∧
    path = absolutePath (nodes.map fun i => (fs.nodes i).name)

section
variable {fs : Ramfs} (htree : Tree fs) (hnames : WellNamed fs)
include htree

theorem Tree.used_of_way {i : Index} {nodes : List Index} (h : Way 0 (fun i => (fs.nodes i).parent) i nodes)
    (hi : (fs.nodes i).used = true) : ∀ j ∈ nodes, (fs.nodes j).used = true := by
  induction h with
  | root => exact fun j hj => absurd hj List.not_mem_nil
  | @down i above hne _ ih =>
    intro j hj
    rcases List.mem_append.mp hj with hj | hj
    · exact ih (htree.parent i hne hi).1 j hj
    grind

include hnames

theorem Tree.step_down {i : Index} (hne : i ≠ 0) (hi : (fs.nodes i).used = true) :
    pathStep fs (fs.nodes i).parent (fs.nodes i).name = some i := by
  have hn := hnames.names i hne hi
  have hs : ¬ FS_NAME_MAX ≤ (fs.nodes i).name.length := by
    have hle := hn.short
    unfold FS_NAME_MAX
    omega
  unfold pathStep
  rw [if_neg hs, if_neg hn.no_dot, if_neg hn.no_dots, if_neg (by simp [(htree.parent i hne hi).2])]
  refine find_child_only hne ⟨hi, rfl, rfl⟩ fun j hj hc => ?_
  exact hnames.distinct j i hj hne hc.1 hi hc.2.1 hc.2.2

theorem Tree.walk_down {i : Index} {nodes : List Index} (h : Way 0 (fun i => (fs.nodes i).parent) i nodes)
    (hi : (fs.nodes i).used = true) : walk (pathStep fs) 0 (nodes.map fun i => (fs.nodes i).name) = some i := by
  induction h with
  | root => rfl
  | @down i above hne _ ih =>
    have ha := ih (htree.parent i hne hi).1
    rw [List.map_append, walk_append, ha]
    show walk (pathStep fs) (fs.nodes i).parent [(fs.nodes i).name] = some i
    rw [walk_cons, htree.step_down hnames hne hi]
    rfl

variable {nodes : List Index} (hway : Way 0 (fun i => (fs.nodes i).parent) fs.current_directory nodes)
include hway

theorem Tree.validNames_of_way : ∀ name ∈ nodes.map (fun i => (fs.nodes i).name), ValidName name := by
  intro name hn
  obtain ⟨i, hi, rfl⟩ := List.mem_map.mp hn
  exact hnames.names i (hway.ne_root hi) (htree.used_of_way hway htree.current.1 i hi)

theorem Tree.fs_chdir_back (d : Index) :
    fs_chdir { fs with current_directory := d } (absolutePath (nodes.map fun i => (fs.nodes i).name)) =
      (0, fs) := by
  obtain ⟨hu, hd⟩ := htree.current
  have hr : resolve { fs with current_directory := d }
      (absolutePath (nodes.map fun i => (fs.nodes i).name)) = some fs.current_directory := by
    rw [resolve_eq_walk, absolutePath, segments_slash, segments_joined (htree.validNames_of_way hnames hway)]
    exact htree.walk_down hnames hway hu
  simp [hr, hd, fs_chdir]

end

/-- In a tree with valid names `fs_pwd` prints the path of the current directory if it succeeds, and it does
when there are two places more than the path is long. The path leads back to the directory from
everywhere. -/
theorem pwd_comes_back (fs : Ramfs) (htree : Tree fs) (hnames : WellNamed fs) :
    ∃ path, CanonicalPath fs path ∧ ∀ (output : Nat → Char) (capacity : UInt32),
      ((fs_pwd fs output capacity).1 = 0 →
        Spells (fs_pwd fs output capacity).2 path ∧ path.head? = some '/' ∧ path.length < capacity.toNat ∧
        ∀ directory, fs_chdir { fs with current_directory := directory } path = (0, fs) ∧
          ∀ output', (fs_pwd (fs_chdir { fs with current_directory := directory } path).2 output' capacity).1 = 0 ∧
            Spells (fs_pwd (fs_chdir { fs with current_directory := directory } path).2 output' capacity).2 path) ∧
      (path.length + 2 ≤ capacity.toNat → (fs_pwd fs output capacity).1 = 0) := by
  obtain ⟨nodes, hway⟩ := (htree.reaches _ htree.current.1).way
  have hclean : '\x00' ∉ absolutePath (nodes.map fun i => (fs.nodes i).name) := by
    rw [absolutePath, List.mem_cons, not_or]
    exact ⟨by decide, joined_clean (htree.validNames_of_way hnames hway)⟩
  have hpwd (output : Nat → Char) (capacity : UInt32) := fs_pwd_spec hway hclean output capacity
  have hchdir (directory : Index) := htree.fs_chdir_back hnames hway directory
  generalize hpath : absolutePath (nodes.map fun i => (fs.nodes i).name) = path at hpwd hchdir
  refine ⟨path, ⟨nodes, hway, hpath.symm⟩, fun output capacity => ⟨fun hzero => ?_, fun hroom => ?_⟩⟩
  · refine ⟨(hpwd output capacity).2 hzero, ?_, ?_, fun directory => ⟨hchdir directory, fun output' => ?_⟩⟩
    · rw [← hpath]
      rfl
    · obtain ⟨hmore, hnil | hfits⟩ := (hpwd output capacity).1.mp hzero
      · rw [← hpath, hnil]
        exact hmore
      · omega
    · have hagain := (hpwd output' capacity).1.mpr ((hpwd output capacity).1.mp hzero)
      rw [hchdir directory]
      exact ⟨hagain, (hpwd output' capacity).2 hagain⟩
  · exact (hpwd output capacity).1.mpr ⟨by omega, Or.inr (by omega)⟩

theorem Orderly.wellNamed {fs : Ramfs} (h : Orderly fs) : WellNamed fs := by
  obtain ⟨m, hk⟩ := h
  exact ⟨hk.names, hk.distinct⟩

/-- `cd /tmp` and `pwd`. -/
theorem pwd_comes_back_from_tmp :
    let fs := (fs_chdir (fs_init zeroed) "/tmp".toList).2
    let after := fs_pwd fs (fun _ => '?') 6
    after.1 = 0 ∧ (List.range 5).map after.2 = ['/', 't', 'm', 'p', '\x00'] ∧
      ∃ path, CanonicalPath fs path ∧ Spells after.2 path ∧
        ∀ directory, fs_chdir { fs with current_directory := directory } path = (0, fs) := by
  intro fs after
  have hsound := (fs_init_sound zeroed).fs_chdir "/tmp".toList
  have horderly := (fs_init_orderly zeroed).call (.chdir "/tmp".toList) (by decide)
  have hzero : after.1 = 0 := by decide +kernel
  refine ⟨hzero, by decide +kernel, ?_⟩
  obtain ⟨path, hpath, hpwd⟩ := pwd_comes_back fs hsound.tree horderly.wellNamed
  obtain ⟨hspells, -, -, hchdir⟩ := (hpwd _ 6).1 hzero
  exact ⟨path, hpath, hspells, fun directory => (hchdir directory).1⟩

/-! ## Segments at files -/

/-- One segment, from a directory only: it is not too long, `.` and `..` stay and go up, and any other one
is the name of a child. -/
def componentStep (fs : Ramfs) (node : Index) (segment : Text) : Option Index :=
  if (fs.nodes node).is_directory = false then none
  else if FS_NAME_MAX ≤ segment.length then none
  else if segment = ['.'] then some node
  else if segment = ['.', '.'] then some (fs.nodes node).parent
  else find_child fs node segment

def IsDots (segment : Text) : Prop := segment = ['.'] ∨ segment = ['.', '.']

theorem componentStep_of_directory {fs : Ramfs} {n : Index} (h : (fs.nodes n).is_directory = true)
    (segment : Text) : componentStep fs n segment = pathStep fs n segment := by
  have hn : ¬ (fs.nodes n).is_directory = false := by simp [h]
  simp [hn, componentStep, pathStep]

theorem componentStep_eq {fs : Ramfs} {n : Index} {segment : Text}
    (h : IsDots segment → (fs.nodes n).is_directory = true) :
    componentStep fs n segment = pathStep fs n segment := by
  by_cases hd : (fs.nodes n).is_directory = true
  · exact componentStep_of_directory hd segment
  obtain ⟨hdo, hdt⟩ := not_or.mp (mt h hd)
  have hf : (fs.nodes n).is_directory = false := Bool.eq_false_iff.mpr hd
  simp [hf, hdo, hdt, componentStep, pathStep]

theorem pathStep_of_componentStep {fs : Ramfs} {n next : Index} {s : Text}
    (h : componentStep fs n s = some next) :
    (fs.nodes n).is_directory = true ∧ pathStep fs n s = some next := by
  have hd : (fs.nodes n).is_directory = true := by
    by_contra hn
    have hf : componentStep fs n s = none := if_pos (Bool.eq_false_iff.mpr hn)
    rw [hf] at h
    contradiction
  exact ⟨hd, (componentStep_of_directory hd s).symm.trans h⟩

theorem walk_pathStep_of_component {fs : Ramfs} {n stop : Index} {l : List Text}
    (h : walk (componentStep fs) n l = some stop) : walk (pathStep fs) n l = some stop :=
  walk_mono (fun _ _ _ (_ : True) _ => trivial) (fun _ _ _ _ hs => (pathStep_of_componentStep hs).2) trivial h

def DotsAtDirectories (fs : Ramfs) (start : Index) (labels : List Text) : Prop :=
  ∀ front segment rest node, labels = front ++ segment :: rest → IsDots segment →
    walk (pathStep fs) start front = some node → (fs.nodes node).is_directory = true

theorem walk_component_eq {fs : Ramfs} {s : Index} {labels : List Text} (h : DotsAtDirectories fs s labels) :
    walk (componentStep fs) s labels = walk (pathStep fs) s labels := by
  induction labels generalizing s with
  | nil => rfl
  | cons sg labels ih =>
    rw [walk_cons, walk_cons, componentStep_eq fun hd => h [] sg labels s rfl hd rfl]
    cases hs : pathStep fs s sg with
    | none => rfl
    | some next =>
      refine ih fun f o rest n heq hd hw => ?_
      refine h (sg :: f) o rest n (by rw [heq, List.cons_append]) hd ?_
      rw [walk_cons, hs]
      exact hw

/-- `resolve` follows the path from directory to directory exactly when it fails, or when `.` and `..` stand
at directories only. -/
theorem resolve_follows_directories_iff (fs : Ramfs) (path : Text) :
    resolve fs path = walk (componentStep fs) (pathStart fs path) (segments path) ↔
      resolve fs path = none ∨ DotsAtDirectories fs (pathStart fs path) (segments path) := by
  rw [resolve_eq_walk]
  constructor
  · intro heq
    rcases hresult : walk (pathStep fs) (pathStart fs path) (segments path) with _ | stop
    · exact Or.inl rfl
    refine Or.inr fun front segment rest node hsegments _ hwalk => ?_
    rw [hresult, hsegments, walk_append] at heq
    obtain ⟨node', hfront, hrest⟩ := Option.bind_eq_some_iff.mp heq.symm
    rw [walk_cons] at hrest
    obtain ⟨next, hstep, -⟩ := Option.bind_eq_some_iff.mp hrest
    rw [walk_pathStep_of_component hfront] at hwalk
    obtain rfl := Option.some.inj hwalk
    exact (pathStep_of_componentStep hstep).1
  · rintro (hfail | hdots)
    · rw [hfail]
      rcases hcomponent : walk (componentStep fs) (pathStart fs path) (segments path) with _ | stop
      · rfl
      · rw [walk_pathStep_of_component hcomponent] at hfail
        contradiction
    · exact (walk_component_eq hdots).symm

/-- After `fs_init` the file `/etc/version` is found as `/etc/version/.` too. -/
theorem a_file_is_found_below_itself :
    Tree (fs_init zeroed) ∧ resolve (fs_init zeroed) "/etc/version/.".toList = some 9 ∧
      ((fs_init zeroed).nodes 9).is_directory = false ∧
      walk (componentStep (fs_init zeroed)) 0 (segments "/etc/version/.".toList) = none := by
  refine ⟨(fs_init_sound zeroed).tree, ?_⟩
  decide +kernel

end mvh.ramfs
