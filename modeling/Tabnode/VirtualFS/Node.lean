import Tabnode.Data.JsNumber
import Tabnode.Data.LabelTree
import Tabnode.VirtualFS.Path

/-!
# Nodes and errors of the filesystem

An `FSNode` is a record with a map of children, so a tree of them is a labelled
tree: the label is the record without its children. What a type needs of the
optional fields (a file its bytes, a link its target) is kept by `Kind`, so a
file without bytes or a link without a target cannot be built.

A mounted tree is another party's: a function from a path below the mount point
to a node it makes for the answer. The contract of that party is a field of
`MountedTree`.
-/

namespace Tabnode

namespace VirtualFS

/-- A node's type, with the bytes of a file and the target of a link as it was
written. -/
inductive Kind where
  | file (content : List UInt8)
  | directory
  | symlink (target : Str)
  deriving DecidableEq

def Kind.target? : Kind → Option Str
  | symlink target => some target
  | _ => none

def Kind.content? : Kind → Option (List UInt8)
  | file content => some content
  | _ => none

/-- The fields of a node other than its children and its mount. -/
structure Attrs where
  kind : Kind
  mtime : JsNumber
  mode : Option ℕ := none
  atime : Option JsNumber := none
  deriving DecidableEq

abbrev Answer := LabelTree Name Attrs

/-- The names and types a tree of nodes is made of: distinct names without a
slash, none of them a dot segment, and children at directories only. -/
structure SoundNode (kind : Kind) (names : List Name) : Prop where
  nodup : names.Nodup
  names_ok : ∀ n ∈ names, '/' ∉ n ∧ n ≠ ['.'] ∧ n ≠ ['.', '.']
  directory : names ≠ [] → kind = Kind.directory

/-- A read-only tree another party answers. `node` is what is at a path relative
to the mount point, `/` being the mount point itself, which is a directory. -/
structure MountedTree where
  node : Str → Option Answer
  sound : ∀ path answer, node path = some answer → ∀ p d, answer.get? p = some d →
    SoundNode d.label.kind (OrderedMap.keys d.children)
  root_directory : ∀ answer, node ['/'] = some answer →
    answer.label.kind = Kind.directory

/-- The fields of a node other than its children. -/
structure Entry extends Attrs where
  mount : Option MountedTree := none

def Entry.isFile (e : Entry) : Bool := e.kind.content?.isSome

abbrev FSNode := LabelTree Name Entry

abbrev Place := List Name

/-- Every node has distinct names in order, children at directories only, and a
mount at a directory only. -/
def Sound (root : FSNode) : Prop :=
  root.AllNodes fun e names =>
    SoundNode e.kind names ∧ (e.mount.isSome → e.kind = Kind.directory)

theorem Sound.directory_of_child {root node child : FSNode} {place : Place}
    {name : Name} (h : Sound root) (hp : root.get? place = some node)
    (hc : node.child? name = some child) : node.label.kind = Kind.directory := by
  refine (h place node hp).1.directory ?_
  intro hnil
  have hmem : name ∈ OrderedMap.keys node.children :=
    OrderedMap.mem_keys_iff.2 ⟨child, hc⟩
  rw [hnil] at hmem
  cases hmem

def newDirectory (now : JsNumber) : FSNode :=
  .node { kind := .directory, mtime := now } []

def newFile (content : List UInt8) (now : JsNumber) : FSNode :=
  .node { kind := .file content, mtime := now } []

def newSymlink (target : Str) (now : JsNumber) : FSNode :=
  .node { kind := .symlink target, mtime := now } []

/-- The node `mount` puts at a mount point. -/
def mountPoint (tree : MountedTree) (now : JsNumber) : FSNode :=
  .node { kind := .directory, mtime := now, mode := some 0o555, mount := some tree } []

/-! ## Errors -/

/-- The codes of `createNodeError`. -/
inductive Code where
  | ENOENT | ENOTDIR | EISDIR | EEXIST | ENOTEMPTY | ELOOP | EINVAL | EROFS
  deriving DecidableEq

/-- What a call throws: `createNodeError`'s errors, the plain errors with their
text, the refusal of a time, the engine's `RangeError` for a call stack or an
array length it cannot have, and its `InvalidCharacterError` for what is not
base64. -/
inductive FsError where
  | node (code : Code) (syscall : String) (path : Str)
  | plain (text : String) (path : Str)
  | invalidArgType (name : String) (received : String)
  | rangeError
  | invalidCharacter
  deriving DecidableEq

/-- `errno[code]`. -/
def Code.errno : Code → Option ℤ
  | ENOENT => some (-2)
  | ENOTDIR => some (-20)
  | EISDIR => some (-21)
  | EEXIST => some (-17)
  | ENOTEMPTY => some (-39)
  | EROFS => some (-30)
  | ELOOP | EINVAL => none

/-- `messages[code]`, with the text the source forms where the table has none. -/
def Code.message : Code → String
  | ENOENT => "no such file or directory"
  | ENOTDIR => "not a directory"
  | EISDIR => "is a directory"
  | EEXIST => "file already exists"
  | ENOTEMPTY => "directory not empty"
  | EROFS => "read-only file system"
  | ELOOP | EINVAL => "undefined"

def Code.text : Code → String
  | ENOENT => "ENOENT"
  | ENOTDIR => "ENOTDIR"
  | EISDIR => "EISDIR"
  | EEXIST => "EEXIST"
  | ENOTEMPTY => "ENOTEMPTY"
  | ELOOP => "ELOOP"
  | EINVAL => "EINVAL"
  | EROFS => "EROFS"

def FsError.message : FsError → Str
  | node code syscall path =>
      (code.text ++ ": " ++ code.message ++ ", " ++ syscall ++ " '").toList ++ path ++ ['\'']
  | plain text path => (text ++ ", '").toList ++ path ++ ['\'']
  | invalidArgType name received =>
      ("The \"" ++ name ++ "\" argument must be an instance of Date or a time in seconds. "
        ++ "Received " ++ received).toList
  | rangeError => "RangeError".toList
  | invalidCharacter => "InvalidCharacterError".toList

def Throws {α : Type*} (r : Except FsError α) (code : Code) : Prop :=
  ∃ syscall path, r = .error (.node code syscall path)

end VirtualFS

end Tabnode
