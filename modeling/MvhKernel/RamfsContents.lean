-- What the nodes of the file system in memory hold.
import MvhKernel.RamfsPaths
import MvhKernel.CStrings
import MvhKernel.Runs

open forest walks c_strings runs

namespace mvh.ramfs

/-! ## Names -/

/-- A name of 1 to 23 characters that is a segment of a path and leads to a child. -/
structure ValidName (name : Text) : Prop where
  nonempty : 1 ≤ name.length
  short : name.length ≤ 23
  no_slash : '/' ∉ name
  no_dot : name ≠ ['.']
  no_dots : name ≠ ['.', '.']
  clean : '\x00' ∉ name

theorem mem_segmentsFrom {path s part : Text} (hs : '/' ∉ s) (h : part ∈ segmentsFrom path s) :
    part ≠ [] ∧ '/' ∉ part ∧ part ⊆ s ++ path := by
  induction path generalizing s with
  | nil =>
    unfold segmentsFrom at h
    grind
  | cons c path ih => grind [segmentsFrom]

theorem ParentOf.validName {fs : Ramfs} {path name : Text} {p : Index} (h : ParentOf fs path p name)
    (hc : '\x00' ∉ path) : ValidName name := by
  obtain ⟨f, hs, -⟩ := h.walk
  have hm : name ∈ segments path := by simp [hs]
  obtain ⟨hsm, hsl, hsb⟩ := mem_segmentsFrom List.not_mem_nil hm
  have hsh := h.short
  unfold FS_NAME_MAX at hsh
  exact ⟨List.length_pos_iff.mpr hsm, by omega, hsl, h.no_dot, h.no_dots, fun hn => hc (hsb hn)⟩

/-! ## Texts -/

/-- The node holds the text: its characters, a NUL, and the size. -/
structure Contains (node : Node) (text : Text) : Prop where
  spells : Spells node.data text
  size : node.size.toNat = text.length
  bounded : text.length ≤ 255

theorem fs_write_loop_spec (t b : Text) (d : Nat → Char) (h : Begins d b)
    (hr : b.length ≤ 255) :
    let after := fs_write_loop t b.length d
    after.1 = (b ++ t).drop 255 ∧ after.2.1 = ((b ++ t).take 255).length ∧
      Begins after.2.2 ((b ++ t).take 255) := by
  induction t generalizing b d with
  | nil =>
    rw [List.append_nil, List.drop_of_length_le hr, List.take_of_length_le hr]
    exact ⟨rfl, rfl, h⟩
  | cons c t ih =>
    unfold fs_write_loop FS_DATA_MAX
    by_cases hf : b.length + 1 < 256
    · have hn := ih (b ++ [c]) (Function.update d b.length c) (h.snoc c)
        (by rw [List.length_append, List.length_singleton]; omega)
      simpa [List.length_append, List.length_singleton, List.append_assoc, hf] using hn
    · grind

theorem contains_of_write {n : Node} {b t : Text} {data : Nat → Char} {p : Nat}
    (hb : Begins data ((b ++ t).take 255)) (hp : p = ((b ++ t).take 255).length)
    (hc : '\x00' ∉ b ++ t) :
    Contains { n with data := Function.update data p '\x00', size := UInt16.ofNat p }
      ((b ++ t).take 255) := by
  have hl : ((b ++ t).take 255).length ≤ 255 := List.length_take_le _ _
  subst hp
  refine ⟨hb.finish fun hn => hc (List.mem_of_mem_take hn), ?_, hl⟩
  simp

theorem fs_write_spec {fs : Ramfs} {path : Text} {i : Index} (hr : resolve fs path = some i)
    (hf : (fs.nodes i).is_directory = false) {c text : Text} (h : Contains (fs.nodes i) c)
    (ht : '\x00' ∉ text) (append : Bool) :
    let w := (if append then c else []) ++ text
    ∃ data size, fs_write fs path text append =
        (if w.length ≤ 255 then 0 else -2, fs.setNode i { fs.nodes i with data, size }) ∧
      Contains { fs.nodes i with data, size } (w.take 255) := by
  intro w
  have hb : Begins (fs.nodes i).data (if append then c else []) ∧
      (if append then (fs.nodes i).size.toNat else 0) = (if append then c else []).length ∧
      (if append then c else []).length ≤ 255 ∧ '\x00' ∉ (if append then c else []) := by
    cases append with
    | true => exact ⟨h.spells.begins, h.size, h.bounded, h.spells.clean⟩
    | false => exact ⟨begins_nil _, rfl, Nat.zero_le _, List.not_mem_nil⟩
  obtain ⟨hbg, hp, hrm, hc⟩ := hb
  have hn : ¬ (fs.nodes i).is_directory = true := by simp [hf]
  have hw : '\x00' ∉ w := by grind
  obtain ⟨hrs, he, hd⟩ := fs_write_loop_spec text _ (fs.nodes i).data hbg hrm
  unfold fs_write
  rw [hr]
  dsimp only
  rw [if_neg hn, hp]
  rcases hl : fs_write_loop text (if append then c else []).length (fs.nodes i).data with ⟨rest, p, data⟩
  rw [hl] at hrs he hd
  dsimp only at hrs he hd ⊢
  refine ⟨_, _, ?_, contains_of_write hd he hw⟩
  grind [List.drop_eq_nil_iff, Prod.ext]

/-! ## What a path can lead to -/

/-- The nodes that were made since `fs_init` have the nodes in use, the current directory and their own
parents, and each file among them holds a text. -/
structure Kept (made : Index → Prop) (fs : Ramfs) : Prop where
  root : (fs.nodes 0).used = true ∧ (fs.nodes 0).is_directory = true ∧ (fs.nodes 0).name = []
  current : made fs.current_directory
  used : ∀ i, (fs.nodes i).used = true → made i
  parent : ∀ i, made i → made (fs.nodes i).parent
  files : ∀ i, made i → (fs.nodes i).is_directory = false → ∃ text, Contains (fs.nodes i) text
  names : ∀ i, i ≠ 0 → (fs.nodes i).used = true → ValidName (fs.nodes i).name
  distinct : Distinct fs

namespace Kept

variable {made : Index → Prop} {fs : Ramfs}

theorem step (h : Kept made fs) (n : Index) (s : Text) (next : Index) (hn : made n)
    (hs : pathStep fs n s = some next) : made next := by
  unfold pathStep at hs
  split at hs
  · contradiction
  split at hs
  · exact Option.some.inj hs ▸ hn
  split at hs
  · exact Option.some.inj hs ▸ h.parent n hn
  split at hs
  · contradiction
  · exact h.used next (find_child_eq_some hs).2.1

theorem start (h : Kept made fs) (path : Text) : made (pathStart fs path) := by
  unfold pathStart
  split
  · exact h.used 0 h.root.1
  · exact h.current

theorem resolve (h : Kept made fs) {path : Text} {i : Index} (hi : resolve fs path = some i) : made i := by
  rw [resolve_eq_walk] at hi
  exact walk_keeps h.step (h.start path) hi

theorem setNode (h : Kept made fs) {i : Index} {n : Node} (hu : n.used = true → (fs.nodes i).used = true)
    (hr : i = 0 → n.used = true) (hd : n.is_directory = (fs.nodes i).is_directory)
    (hp : n.parent = (fs.nodes i).parent) (hnm : n.name = (fs.nodes i).name)
    (hf : made i → n.is_directory = false → ∃ t, Contains n t) : Kept made (fs.setNode i n) := by
  have hn (j : Index) : (((fs.setNode i n).nodes j).used = true → (fs.nodes j).used = true) ∧
      ((fs.setNode i n).nodes j).is_directory = (fs.nodes j).is_directory ∧
      ((fs.setNode i n).nodes j).parent = (fs.nodes j).parent ∧
      ((fs.setNode i n).nodes j).name = (fs.nodes j).name := by grind [setNode_same, setNode_ne]
  constructor
  case root =>
    refine ⟨?_, (hn 0).2.1.trans h.root.2.1, (hn 0).2.2.2.trans h.root.2.2⟩
    by_cases hz : (0 : Index) = i
    · grind [setNode_same]
    · rw [setNode_ne fs n hz]
      exact h.root.1
  case current => exact h.current
  case used => exact fun j hj => h.used j ((hn j).1 hj)
  case parent =>
    intro j hj
    rw [(hn j).2.2.1]
    exact h.parent j hj
  case files =>
    intro j hj hk
    by_cases hs : j = i
    · grind [setNode_same]
    · rw [setNode_ne fs n hs] at hk ⊢
      exact h.files j hj hk
  case names =>
    intro j hne hj
    rw [(hn j).2.2.2]
    exact h.names j hne ((hn j).1 hj)
  case distinct => exact h.distinct.congr fun j hj => ⟨(hn j).1 hj, (hn j).2.2.1, (hn j).2.2.2⟩

theorem newChild (h : Kept made fs) {parent index : Index} {nm : Text} {n : Node}
    (hn : NewChild fs parent nm index n) (hp : made parent) (hnm : ValidName nm)
    (he : Contains n []) : Kept (fun i => made i ∨ i = index) (fs.setNode index n) := by
  have hold {i : Index} (hi : i ≠ index) : (fs.setNode index n).nodes i = fs.nodes i := setNode_ne fs n hi
  constructor
  case root =>
    rw [hold hn.nonzero.symm]
    exact h.root
  case current => exact Or.inl h.current
  case used =>
    intro i hi
    by_cases hs : i = index
    · exact Or.inr hs
    · rw [hold hs] at hi
      exact Or.inl (h.used i hi)
  case parent =>
    intro i hi
    by_cases hs : i = index
    · subst hs
      rw [setNode_same, hn.linked]
      exact Or.inl hp
    · rw [hold hs]
      exact Or.inl (h.parent i (hi.resolve_right hs))
  case files =>
    intro i hi hk
    by_cases hs : i = index
    · grind [setNode_same]
    · rw [hold hs] at hk ⊢
      exact h.files i (hi.resolve_right hs) hk
  case names =>
    intro i hne hi
    by_cases hs : i = index
    · subst hs
      rw [setNode_same, hn.named]
      exact hnm
    · rw [hold hs] at hi ⊢
      exact h.names i hne hi
  case distinct => exact hn.distinct h.distinct

end Kept

/-! ## Calls -/

def Orderly (fs : Ramfs) : Prop := ∃ made, Kept made fs

def Call.Clean : Call → Prop
  | .mkdir path | .touch path | .chdir path | .remove path => '\x00' ∉ path
  | .write path text _ => '\x00' ∉ path ∧ '\x00' ∉ text

instance (call : Call) : Decidable call.Clean := by
  unfold Call.Clean
  cases call <;> infer_instance

section
variable {fs : Ramfs}

theorem Orderly.create_node (h : Orderly fs) {path : Text} (hc : '\x00' ∉ path) (ir : Bool) :
    Orderly (create_node fs path ir).2 := by
  obtain ⟨made, hk⟩ := h
  rcases create_node_cases fs path ir with
    hs | ⟨parent, name, i, node, hof, hn, ⟨-, hsz, hd⟩, ha⟩
  · rw [hs]
    exact ⟨made, hk⟩
  · obtain ⟨f, -, hw⟩ := hof.walk
    rw [ha]
    refine ⟨_, hk.newChild hn (walk_keeps hk.step (hk.start path) hw) (hof.validName hc) ?_⟩
    exact ⟨spells_nil hd, congrArg UInt16.toNat hsz, Nat.zero_le _⟩

theorem Orderly.call (h : Orderly fs) (cl : Call) (hcl : cl.Clean) : Orderly (fs.call cl).2 := by
  cases cl with
  | mkdir path => exact h.create_node hcl true
  | touch path =>
    show Orderly (fs_touch fs path).2
    unfold fs_touch
    split
    · exact h
    · exact h.create_node hcl false
  | write path t append =>
    show Orderly (fs_write fs path t append).2
    obtain ⟨made, hk⟩ := h
    rcases hr : resolve fs path with _ | i
    · unfold fs_write
      rw [hr]
      exact ⟨made, hk⟩
    rcases hkn : (fs.nodes i).is_directory with _ | _
    · obtain ⟨c, hc⟩ := hk.files i (hk.resolve hr) hkn
      obtain ⟨d, s, hw, hcn⟩ := fs_write_spec hr hkn hc hcl.2 append
      rw [hw]
      refine ⟨made, hk.setNode id (fun hz => ?_) rfl rfl rfl fun _ _ => ⟨_, hcn⟩⟩
      rw [hz]
      exact hk.root.1
    · unfold fs_write
      rw [hr]
      dsimp only
      rw [if_pos hkn]
      exact ⟨made, hk⟩
  | chdir path =>
    show Orderly (fs_chdir fs path).2
    unfold fs_chdir
    split
    · exact h
    next i hr =>
    split
    · exact h
    · obtain ⟨made, hk⟩ := h
      exact ⟨made, hk.root, hk.resolve hr, hk.used, hk.parent, hk.files, hk.names,
        hk.distinct⟩
  | remove path =>
    show Orderly (fs_remove fs path).2
    obtain ⟨made, hk⟩ := h
    rcases fs_remove_spec fs path with ⟨-, hs⟩ | ⟨i, -, hrt, -, hrm⟩
    · rw [hs]
      exact ⟨made, hk⟩
    · rw [hrm]
      refine ⟨made, hk.setNode (fun hu => absurd hu (by simp)) (fun hz => absurd hz hrt) rfl rfl rfl
        fun hm hkn => ?_⟩
      obtain ⟨t, ht⟩ := hk.files i hm hkn
      exact ⟨t, ht.spells, ht.size, ht.bounded⟩

theorem Orderly.run (h : Orderly fs) {c : List Call} (hc : ∀ cl ∈ c, cl.Clean) :
    Orderly (fs.run c) := by
  induction c generalizing fs with
  | nil => exact h
  | cons cl c ih =>
    exact ih (h.call cl (hc cl List.mem_cons_self)) fun o ho => hc o (List.mem_cons_of_mem _ ho)

end

theorem emptyTree_orderly (old : Ramfs) : Orderly (emptyTree old) := by
  have hu (i : Index) (hi : ((emptyTree old).nodes i).used = true) : i = 0 := by
    grind [emptyTree]
  refine ⟨fun i => i = 0, ⟨rfl, rfl, rfl⟩, rfl, hu, ?_, ?_, ?_, emptyTree_distinct old⟩
  · rintro i rfl
    rfl
  · rintro i rfl hk
    cases hk
  grind

theorem fs_init_orderly (old : Ramfs) : Orderly (fs_init old) := by
  apply (emptyTree_orderly old).run
  decide +kernel

/-! ## Runs -/

def Ramfs.after (fs : Ramfs) (op : Operation) : Ramfs := (fs.operate op).2

theorem orderly_after (fs : Ramfs) (op : Operation) (h : Orderly fs) : Orderly (fs.after op) := by
  cases op with
  | init =>
    unfold Ramfs.after Ramfs.operate
    dsimp only
    exact fs_init_orderly fs
  | chdir path => exact h.call (.chdir path) path.2
  | pwd o c => exact h
  | list path c => exact h
  | mkdir path => exact h.call (.mkdir path) path.2
  | touch path => exact h.call (.touch path) path.2
  | write path t append => exact h.call (.write path t append) ⟨path.2, t.2⟩
  | read path => exact h
  | remove path => exact h.call (.remove path) path.2

/-- No two nodes in use have the same parent and the same name, the names are valid, and every
file in use holds a text of at most 255 characters, which is its size. -/
structure Unambiguous (fs : Ramfs) : Prop where
  distinct : ∀ i j, (fs.nodes i).used = true → (fs.nodes j).used = true →
    (fs.nodes i).parent = (fs.nodes j).parent → (fs.nodes i).name = (fs.nodes j).name → i = j
  names : ∀ i, i ≠ 0 → (fs.nodes i).used = true → ValidName (fs.nodes i).name
  files : ∀ i, (fs.nodes i).used = true → (fs.nodes i).is_directory = false → ∃ text, Contains (fs.nodes i) text
  reached : ∀ path i, resolve fs path = some i → (fs.nodes i).is_directory = false →
    ∃ text, Contains (fs.nodes i) text

theorem Orderly.unambiguous {fs : Ramfs} (h : Orderly fs) : Unambiguous fs := by
  obtain ⟨made, hk⟩ := h
  have hnm (i : Index) (hi : (fs.nodes i).used = true) (hn : (fs.nodes i).name = []) : i = 0 := by
    by_contra hne
    have hl := (hk.names i hne hi).nonempty
    grind
  constructor
  case distinct =>
    intro i j hi hj hp hn
    by_cases hz : i = 0
    · rw [hz, hk.root.2.2] at hn
      rw [hz, hnm j hj hn.symm]
    · by_cases hz' : j = 0
      · rw [hz', hk.root.2.2] at hn
        exact absurd (hnm i hi hn) hz
      · exact hk.distinct i j hz hz' hi hj hp hn
  case names => exact hk.names
  case files => exact fun i hi => hk.files i (hk.used i hi)
  case reached => exact fun path i hi => hk.files i (hk.resolve hi)

/-- After `fs_init` and any operations the file system is unambiguous. -/
theorem the_nodes_are_unambiguous (old : Ramfs) (ops : List Operation) :
    Unambiguous (run Ramfs.after (fs_init old) ops) := by
  have hinit := fs_init_orderly old
  generalize fs_init old = fs at hinit
  exact (run_keeps orderly_after hinit ops).unambiguous

/-! ## Writes -/

def Reads (fs : Ramfs) (path text : Text) : Prop :=
  ∃ data size, fs_read fs path = some (data, size) ∧ Spells data text ∧ size.toNat = text.length

theorem Contains.reads {fs : Ramfs} {path text : Text} {i : Index} (h : Contains (fs.nodes i) text)
    (hr : resolve fs path = some i) (hf : (fs.nodes i).is_directory = false) : Reads fs path text := by
  refine ⟨(fs.nodes i).data, (fs.nodes i).size, ?_, h.spells, h.size⟩
  simp [hr, hf, fs_read]

theorem resolve_setNode (fs : Ramfs) (i : Index) (data : Nat → Char) (size : UInt16) (path : Text) :
    resolve (fs.setNode i { fs.nodes i with data, size }) path = resolve fs path := by
  generalize ha : fs.setNode i { fs.nodes i with data, size } = after
  have hn (j : Index) : (after.nodes j).used = (fs.nodes j).used ∧
      (after.nodes j).is_directory = (fs.nodes j).is_directory ∧ (after.nodes j).parent = (fs.nodes j).parent ∧
      (after.nodes j).name = (fs.nodes j).name := by grind [setNode_same, setNode_ne]
  have hc (node : Index) (segment : Text) : find_child after node segment = find_child fs node segment := by
    simp [hn, find_child]
  have hst : pathStep after = pathStep fs := by grind [pathStep]
  have hs : pathStart after path = pathStart fs path := by
    rw [← ha]
    rfl
  rw [resolve_eq_walk, resolve_eq_walk, hst, hs]

def appendText (path : Text) (fs : Ramfs) (text : CText) : Option Ramfs :=
  if (fs_write fs path text true).1 = 0 then some (fs_write fs path text true).2 else none

theorem appends_read_back {fs after : Ramfs} {path c : Text} {i : Index} (hr : resolve fs path = some i)
    (hf : (fs.nodes i).is_directory = false) (hc : Contains (fs.nodes i) c) {t : List CText}
    (h : walk (appendText path) fs t = some after) : Reads after path (c ++ t.flatMap Subtype.val) := by
  induction t generalizing fs c with
  | nil =>
    obtain rfl := Option.some.inj h
    rw [List.flatMap_nil, List.append_nil]
    exact hc.reads hr hf
  | cons tx t ih =>
    rw [walk_cons] at h
    obtain ⟨next, hn, hrs⟩ := Option.bind_eq_some_iff.mp h
    obtain ⟨d, s, hw, hcn⟩ := fs_write_spec hr hf hc tx.2 true
    rw [if_pos (rfl : true = true)] at hw hcn
    unfold appendText at hn
    rw [hw] at hn
    dsimp only at hn hcn
    by_cases hft : (c ++ tx.val).length ≤ 255
    · rw [if_pos hft, if_pos rfl] at hn
      obtain rfl := Option.some.inj hn
      rw [List.take_of_length_le hft] at hcn
      rw [List.flatMap_cons, ← List.append_assoc]
      refine ih ((resolve_setNode fs i d s path).trans hr) ?_ ?_ hrs
      · rw [setNode_same]
        exact hf
      grind [setNode_same]
    grind

/-- A write leaves the first 255 characters of what it was given, behind what was there if it appends. It
returns 0 when nothing is cut off and -2 otherwise, and it changes only the data and the size of
the file. Appends that succeed one after the other read back as one text. -/
theorem writes_read_back (fs : Ramfs) (path c : Text) (i : Index) (hresolve : resolve fs path = some i)
    (hfile : (fs.nodes i).is_directory = false) (hc : Contains (fs.nodes i) c) :
    (∀ (text : CText) (append : Bool),
      let whole := if append then c ++ text.val else text.val
      let after := fs_write fs path text append
      Reads after.2 path (whole.take 255) ∧ after.1 = (if whole.length ≤ 255 then 0 else -2) ∧
        ∃ data size, after.2 = fs.setNode i { fs.nodes i with data, size }) ∧
      ∀ (texts : List CText) (after : Ramfs), walk (appendText path) fs texts = some after →
        Reads after path (c ++ texts.flatMap Subtype.val) := by
  refine ⟨fun text append => ?_, fun texts after => appends_read_back hresolve hfile hc⟩
  obtain ⟨data, size, hwrite, hcontains⟩ := fs_write_spec hresolve hfile hc text.2 append
  have hwhole : (if append then c else []) ++ text.val = if append then c ++ text.val else text.val := by
    cases append <;> rfl
  rw [hwhole] at hwrite hcontains
  rw [hwrite]
  refine ⟨?_, rfl, data, size, rfl⟩
  have hnode : (fs.setNode i { fs.nodes i with data, size }).nodes i = { fs.nodes i with data, size } :=
    setNode_same ..
  rw [← hnode] at hcontains
  refine hcontains.reads ((resolve_setNode fs i data size path).trans hresolve) ?_
  rw [hnode]
  exact hfile

/-- A new file has no text, and two texts are appended to it. -/
theorem two_texts_read_back :
    let fs := (fs_touch (emptyTree zeroed) "/a".toList).2
    ∃ after, walk (appendText "/a".toList) fs [⟨"MVH ".toList, by decide⟩, ⟨"Kernel".toList, by decide⟩] = some after ∧
      Reads after "/a".toList "MVH Kernel".toList := by
  intro fs
  have hempty : Contains (fs.nodes 1) [] := ⟨spells_nil (by decide +kernel), by decide +kernel, by decide⟩
  have hsome : (walk (appendText "/a".toList) fs
      [⟨"MVH ".toList, by decide⟩, ⟨"Kernel".toList, by decide⟩]).isSome = true := by
    decide +kernel
  obtain ⟨after, hafter⟩ := Option.isSome_iff_exists.mp hsome
  refine ⟨after, hafter, ?_⟩
  exact (writes_read_back fs "/a".toList [] 1 (by decide +kernel) (by decide +kernel) hempty).2 _ after hafter

end mvh.ramfs
