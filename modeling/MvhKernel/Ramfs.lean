-- The file system in memory of `ramfs.c`: 64 nodes that name their parent by index, and
-- the index of the current directory.
import Mathlib.Algebra.Ring.Nat
import Mathlib.Data.List.FinRange
import MvhKernel.Forest

namespace mvh.ramfs

abbrev FS_NODE_MAX : Nat := 64
def FS_NAME_MAX : Nat := 24
def FS_DATA_MAX : Nat := 256
def FS_PATH_MAX : Nat := 128

abbrev Text := List Char
abbrev Index := Fin FS_NODE_MAX

scoped instance nodes : NeZero FS_NODE_MAX := ⟨by decide⟩

structure Node where
  used : Bool
  is_directory : Bool
  parent : Index
  size : UInt16
  name : Text
  data : Nat → Char

structure Ramfs where
  nodes : Index → Node
  current_directory : Index

def Ramfs.setNode (fs : Ramfs) (index : Index) (node : Node) : Ramfs :=
  { fs with nodes := Function.update fs.nodes index node }

/-! ## Strings -/

/-- What `string_copy` leaves in a target of `capacity` characters. -/
def string_copy (source : Text) (capacity : Nat) : Text := source.take (capacity - 1)

def string_equal : Text → Text → Bool
  | left :: lefts, right :: rights => if left ≠ right then false else string_equal lefts rights
  | [], [] => true
  | _, _ => false

/-! ## Paths -/

/-- The indices of `for (index = 1; index < FS_NODE_MAX; index++)`. -/
def indices : List Index := (List.finRange FS_NODE_MAX).tail

def find_child (fs : Ramfs) (parent : Index) (name : Text) : Option Index :=
  indices.find? fun index => (fs.nodes index).used && (fs.nodes index).parent == parent &&
    string_equal (fs.nodes index).name name

/-- The inner loop of `resolve`: the characters up to the next slash, and what follows them. -/
def resolve_segment : Text → Text → Option (Text × Text)
  | [], segment => some (segment, [])
  | c :: path, segment =>
    if c = '/' then some (segment, c :: path)
    else if segment.length + 1 ≥ FS_NAME_MAX then none
    else resolve_segment path (segment ++ [c])

/-- The outer loop of `resolve`. -/
def resolve_loop (fs : Ramfs) : Nat → Index → Text → Option Index
  | 0, node, _ => some node
  | fuel + 1, node, path =>
    match path.dropWhile (· = '/') with
    | [] => some node
    | c :: path =>
      match resolve_segment (c :: path) [] with
      | none => none
      | some (segment, path) =>
        if string_equal segment ['.'] then resolve_loop fs fuel node path
        else if string_equal segment ['.', '.'] then resolve_loop fs fuel (fs.nodes node).parent path
        else if (fs.nodes node).is_directory = false then none
        else
          match find_child fs node segment with
          | none => none
          | some child => resolve_loop fs fuel child path

def resolve (fs : Ramfs) (path : Text) : Option Index :=
  let node := if path.head? = some '/' then 0 else fs.current_directory
  let rest := if path.head? = some '/' then path.drop 1 else path
  resolve_loop fs rest.length node rest

def resolve_parent_split (path : Text) : Nat → Nat
  | 0 => 0
  | split + 1 => if path[split]? = some '/' then split + 1 else resolve_parent_split path split

def resolve_parent (fs : Ramfs) (path : Text) : Option (Index × Text) :=
  let length := path.length
  if length = 0 ∨ length ≥ FS_PATH_MAX ∨ path[length - 1]? = some '/' then none
  else
    let split := resolve_parent_split path length
    if length - split = 0 ∨ length - split ≥ FS_NAME_MAX then none
    else
      let name := path.drop split
      if string_equal name ['.'] ∨ string_equal name ['.', '.'] then none
      else if split = 0 then some (fs.current_directory, name)
      else
        let parent_path := if split = 1 then ['/'] else path.take (split - 1)
        match resolve fs parent_path with
        | none => none
        | some resolved =>
          if (fs.nodes resolved).is_directory = false then none else some (resolved, name)

/-! ## Operations

The result is the value that the function returns, and the file system. -/

def create_node (fs : Ramfs) (path : Text) (is_directory : Bool) : Int × Ramfs :=
  match resolve_parent fs path with
  | none => (-1, fs)
  | some (parent, name) =>
    if (find_child fs parent name).isSome then (-1, fs)
    else
      match indices.find? fun index => !(fs.nodes index).used with
      | none => (-1, fs)
      | some index =>
        (0, fs.setNode index
          { used := true
            is_directory
            parent
            size := 0
            name := string_copy name FS_NAME_MAX
            data := Function.update (fs.nodes index).data 0 '\x00' })

def fs_chdir (fs : Ramfs) (path : Text) : Int × Ramfs :=
  match resolve fs path with
  | none => (-1, fs)
  | some node =>
    if (fs.nodes node).is_directory = false then (-1, fs) else (0, { fs with current_directory := node })

def fs_mkdir (fs : Ramfs) (path : Text) : Int × Ramfs := create_node fs path true

def fs_touch (fs : Ramfs) (path : Text) : Int × Ramfs :=
  match resolve fs path with
  | some node => (if (fs.nodes node).is_directory = false then 0 else -1, fs)
  | none => create_node fs path false

/-- The loop of `fs_write`: the text that is left, the position and the data. -/
def fs_write_loop : Text → Nat → (Nat → Char) → Text × Nat × (Nat → Char)
  | [], position, data => ([], position, data)
  | c :: text, position, data =>
    if position + 1 < FS_DATA_MAX then
      fs_write_loop text (position + 1) (Function.update data position c)
    else (c :: text, position, data)

def fs_write (fs : Ramfs) (path text : Text) (append : Bool) : Int × Ramfs :=
  match resolve fs path with
  | none => (-1, fs)
  | some index =>
    let node := fs.nodes index
    if node.is_directory then (-1, fs)
    else
      let (rest, position, data) :=
        fs_write_loop text (if append then node.size.toNat else 0) node.data
      (if rest = [] then 0 else -2,
        fs.setNode index
          { node with data := Function.update data position '\x00', size := UInt16.ofNat position })

def fs_remove (fs : Ramfs) (path : Text) : Int × Ramfs :=
  match resolve fs path with
  | none => (-1, fs)
  | some node =>
    if node = 0 then (-1, fs)
    else if (fs.nodes node).is_directory ∧
        indices.any fun index => (fs.nodes index).used && (fs.nodes index).parent == node then (-2, fs)
    else (0, fs.setNode node { fs.nodes node with used := false })

/-! ## Queries

They leave the file system as it is. The result `none` is -1. -/

def fs_read (fs : Ramfs) (path : Text) : Option ((Nat → Char) × UInt16) :=
  match resolve fs path with
  | none => none
  | some node =>
    if (fs.nodes node).is_directory then none else some ((fs.nodes node).data, (fs.nodes node).size)

/-- The first loop of `fs_pwd`: the chain from the node up, its last entry first. -/
def fs_pwd_chain (fs : Ramfs) : Nat → Index → List Index → List Index
  | 0, _, chain => chain
  | left + 1, node, chain =>
    if node = 0 then chain else fs_pwd_chain fs left (fs.nodes node).parent (node :: chain)

def fs_pwd_copy : Text → Nat → (Nat → Char) → Nat → Char
  | [], _, output => output
  | c :: name, position, output => fs_pwd_copy name (position + 1) (Function.update output position c)

/-- The second loop of `fs_pwd`, with the value that the function returns and the output. -/
def fs_pwd_loop (fs : Ramfs) (capacity : Nat) : List Index → Nat → (Nat → Char) → Int × (Nat → Char)
  | [], position, output => (0, Function.update output position '\x00')
  | node :: chain, position, output =>
    let name := (fs.nodes node).name
    if position + name.length + 1 ≥ capacity then (-1, output)
    else
      let output := fs_pwd_copy name position output
      let position := position + name.length
      if chain = [] then fs_pwd_loop fs capacity chain position output
      else fs_pwd_loop fs capacity chain (position + 1) (Function.update output position '/')

def fs_pwd (fs : Ramfs) (output : Nat → Char) (capacity : UInt32) : Int × (Nat → Char) :=
  if capacity < 2 then (-1, output)
  else
    fs_pwd_loop fs capacity.toNat (fs_pwd_chain fs FS_NODE_MAX fs.current_directory []) 1
      (Function.update output 0 '/')

structure Entry where
  name : Text
  is_directory : Bool
  size : UInt16

def Node.entry (node : Node) : Entry where
  name := string_copy node.name FS_NAME_MAX
  is_directory := node.is_directory
  size := node.size

def fs_list_loop (fs : Ramfs) (node : Index) (capacity : Nat) : List Index → List Entry → List Entry
  | [], entries => entries
  | index :: rest, entries =>
    if entries.length < capacity then
      if (fs.nodes index).used ∧ (fs.nodes index).parent = node then
        fs_list_loop fs node capacity rest (entries ++ [(fs.nodes index).entry])
      else fs_list_loop fs node capacity rest entries
    else entries

def fs_list (fs : Ramfs) (path : Text) (capacity : UInt32) : Option (List Entry) :=
  match if path = [] then some fs.current_directory else resolve fs path with
  | none => none
  | some node =>
    if (fs.nodes node).is_directory = false then
      if capacity = 0 then some [] else some [(fs.nodes node).entry]
    else some (fs_list_loop fs node capacity.toNat indices [])

/-! ## Calls -/

inductive Call where
  | mkdir (path : Text)
  | touch (path : Text)
  | write (path text : Text) (append : Bool)
  | chdir (path : Text)
  | remove (path : Text)

def Ramfs.call (fs : Ramfs) : Call → Int × Ramfs
  | .mkdir path => fs_mkdir fs path
  | .touch path => fs_touch fs path
  | .write path text append => fs_write fs path text append
  | .chdir path => fs_chdir fs path
  | .remove path => fs_remove fs path

def Ramfs.run (fs : Ramfs) : List Call → Ramfs
  | [] => fs
  | call :: calls => (fs.call call).2.run calls

def MVH_KERNEL_NAME : String := "MVH Kernel"
def MVH_KERNEL_VERSION : String := "1.1.10"
def MVH_KERNEL_ARCH : String := "x86_64"

def initCalls : List Call :=
  [.mkdir "/home".toList, .mkdir "/bin".toList, .mkdir "/dev".toList, .mkdir "/etc".toList,
    .mkdir "/kernel".toList, .mkdir "/tmp".toList, .mkdir "/var".toList,
    .touch "/home/welcome.txt".toList,
    .write "/home/welcome.txt".toList
      ("Welcome to " ++ MVH_KERNEL_NAME ++ " " ++ MVH_KERNEL_VERSION ++ "\n").toList false,
    .touch "/etc/version".toList,
    .write "/etc/version".toList (MVH_KERNEL_VERSION ++ "\n").toList false,
    .touch "/kernel/release".toList,
    .write "/kernel/release".toList
      ("MVHKernel " ++ MVH_KERNEL_VERSION ++ " " ++ MVH_KERNEL_ARCH ++ "\n").toList false]

def emptyTree (old : Ramfs) : Ramfs where
  nodes index :=
    if index = 0 then { old.nodes 0 with used := true, is_directory := true, parent := 0, name := [] }
    else { old.nodes index with used := false }
  current_directory := 0

def fs_init (old : Ramfs) : Ramfs := (emptyTree old).run initCalls

/-! ## Operations on strings of C -/

/-- A string that a C program can pass: it has no NUL before its end. -/
abbrev CText := { text : Text // '\x00' ∉ text }

/-- All the functions of `fs.h`. -/
inductive Operation where
  | init
  | chdir (path : CText)
  | pwd (output : Nat → Char) (capacity : UInt32)
  | list (path : CText) (capacity : UInt32)
  | mkdir (path : CText)
  | touch (path : CText)
  | write (path text : CText) (append : Bool)
  | read (path : CText)
  | remove (path : CText)

/-- What an operation gives back. -/
inductive Answer where
  | done
  | code (result : Int)
  | path (result : Int) (output : Nat → Char)
  | entries (entries : Option (List Entry))
  | file (file : Option ((Nat → Char) × UInt16))

def Ramfs.operate (fs : Ramfs) : Operation → Answer × Ramfs
  | .init => (.done, fs_init fs)
  | .chdir path => (.code (fs_chdir fs path).1, (fs_chdir fs path).2)
  | .pwd output capacity => (.path (fs_pwd fs output capacity).1 (fs_pwd fs output capacity).2, fs)
  | .list path capacity => (.entries (fs_list fs path capacity), fs)
  | .mkdir path => (.code (fs_mkdir fs path).1, (fs_mkdir fs path).2)
  | .touch path => (.code (fs_touch fs path).1, (fs_touch fs path).2)
  | .write path text append => (.code (fs_write fs path text append).1, (fs_write fs path text append).2)
  | .read path => (.file (fs_read fs path), fs)
  | .remove path => (.code (fs_remove fs path).1, (fs_remove fs path).2)

end mvh.ramfs
