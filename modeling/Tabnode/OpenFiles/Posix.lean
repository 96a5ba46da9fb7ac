import Mathlib.Logic.Function.Basic
import Tabnode.VirtualFS.Operations

/-!
# Descriptors of the file binding

Over a tree that owns no descriptions the binding keeps its own table of open files. A
descriptor reads the whole file at its first read and answers every later one from that
copy; a write goes to the tree, at its end or at a position, and into the copy.

The tree is its regular files and the links that lead to them, by path: what it does with
directories, and with links on the way to an entry, is the filesystem's own development.
-/

namespace Tabnode

namespace OpenFiles

open Function VirtualFS

/-- What a path names: a file with its bytes, or a link with the path it leads to. -/
inductive Node (Path : Type) where
  | file (content : List UInt8)
  | link (target : Path)

abbrev Tree (Path : Type) := Path → Option (Node Path)

/-- The codes of the errors. -/
inductive Code where
  | ELOOP | ENOENT | ENOTDIR | EEXIST | EBADF | EINVAL
  deriving DecidableEq

variable {Path : Type}

namespace Tree

def lead (tree : Tree Path) : ℕ → Path → Option Path
  | 0, _ => none
  | left + 1, path =>
      match tree path with
      | some (.link target) => tree.lead left target
      | _ => some path

def fileAt (tree : Tree Path) (place : Path) : Option (List UInt8) :=
  match tree place with
  | some (.file content) => some content
  | _ => none

/-- `getNode`: the file a path leads to, with its bytes. -/
def getNode (tree : Tree Path) (path : Path) : Except Code (Option (Path × List UInt8)) :=
  match tree.lead linkBound path with
  | none => .error .ELOOP
  | some place => .ok ((tree.fileAt place).map fun content => (place, content))

def readFileSync (tree : Tree Path) (path : Path) : Except Code (List UInt8) :=
  match tree.getNode path with
  | .error e => .error e
  | .ok none => .error .ENOENT
  | .ok (some (_, content)) => .ok content

variable [DecidableEq Path]

/-- `writeFileSync`: the entry at the path is a file with these bytes, a link that was
there replaced. -/
def writeFileSync (tree : Tree Path) (path : Path) (data : List UInt8) : Tree Path :=
  update tree path (some (.file data))

def appendFileSync (tree : Tree Path) (path : Path) (bytes : List UInt8) :
    Except Code (Tree Path) :=
  match tree.getNode path with
  | .error e => .error e
  | .ok none => .ok (tree.writeFileSync path bytes)
  | .ok (some (place, content)) =>
      .ok (update tree place (some (.file (content ++ bytes))))

/-- `writeAtSync`, which leaves the file alone where there is nothing to write. -/
def writeAtSync (tree : Tree Path) (path : Path) (data : List UInt8) (position : ℕ) :
    Except Code (Tree Path) :=
  match tree.getNode path with
  | .error e => .error e
  | .ok none => .ok (tree.writeFileSync path (writtenAt [] data position))
  | .ok (some (place, content)) =>
      if data = [] then .ok tree
      else .ok (update tree place (some (.file (writtenAt content data position))))

end Tree

/-- The flags of an `open`: the access mode, and the bits of `flagBits`. -/
structure Flags where
  access : ℕ
  create : Bool := false
  excl : Bool := false
  truncate : Bool := false
  append : Bool := false

/-- An open file: `cached` are the bytes it holds after its first read. -/
structure OpenFile (Path : Type) where
  path : Path
  flags : Flags
  position : ℕ
  cached : Option (List UInt8) := none

/-- The tree and the table of open files. -/
structure Engine (Path : Type) where
  tree : Tree Path
  openFiles : ℕ → Option (OpenFile Path)
  nextFd : ℕ

/-- What is answered. -/
inductive Answer where
  | fd (fd : ℕ)
  | bytes (bytes : List UInt8)
  | count (count : ℕ)
  | size (size : ℕ)
  | done
  deriving DecidableEq

/-- The calls on descriptors, and the writes by path. A position that is absent is the
descriptor's own. -/
inductive Op (Path : Type) where
  | open (path : Path) (flags : Flags)
  | close (fd : ℕ)
  | read (fd length : ℕ) (position : Option ℕ)
  | write (fd : ℕ) (bytes : List UInt8) (position : Option ℕ)
  | ftruncate (fd length : ℕ)
  | fstat (fd : ℕ)
  | readFileUtf8 (fd : ℕ)
  | readPathUtf8 (path : Path) (flags : Flags)
  | writeFileUtf8 (fd : ℕ) (bytes : List UInt8)
  | writePathUtf8 (path : Path) (flags : Flags) (bytes : List UInt8)
  | writeFileSync (path : Path) (data : List UInt8)
  | appendFileSync (path : Path) (data : List UInt8)

namespace Engine

def new (tree : Tree Path) (nextFd : ℕ) : Engine Path :=
  { tree := tree, openFiles := fun _ => none, nextFd := nextFd }

def setFile (s : Engine Path) (fd : ℕ) (file : OpenFile Path) : Engine Path :=
  { s with openFiles := update s.openFiles fd (some file) }

def allocate (s : Engine Path) (tree : Tree Path) (path : Path) (flags : Flags) (position : ℕ) :
    Except Code ℕ × Engine Path :=
  (.ok s.nextFd,
    { tree := tree
      openFiles := update s.openFiles s.nextFd
        (some { path := path, flags := flags, position := position })
      nextFd := s.nextFd + 1 })

variable [DecidableEq Path]

/-- `open`. `parent` says what is wrong with the directory a new file would be in. -/
def openFile (parent : Path → Option Code) (s : Engine Path) (path : Path) (flags : Flags) :
    Except Code ℕ × Engine Path :=
  match s.tree.getNode path with
  | .error e => (.error e, s)
  | .ok none =>
      if flags.create then
        match parent path with
        | some e => (.error e, s)
        | none => s.allocate (s.tree.writeFileSync path []) path flags 0
      else (.error .ENOENT, s)
  | .ok (some (_, content)) =>
      if flags.excl && flags.create then (.error .EEXIST, s)
      else if flags.truncate then s.allocate (s.tree.writeFileSync path []) path flags 0
      else s.allocate s.tree path flags (if flags.append then content.length else 0)

def close (s : Engine Path) (fd : ℕ) : Except Code Unit × Engine Path :=
  match s.openFiles fd with
  | none => (.error .EBADF, s)
  | some _ => (.ok (), { s with openFiles := update s.openFiles fd none })

/-- The bytes a descriptor reads: its copy, or the file as it is at its first read. -/
def held (s : Engine Path) (file : OpenFile Path) : Except Code (List UInt8) :=
  match file.cached with
  | some bytes => .ok bytes
  | none => s.tree.readFileSync file.path

def read (s : Engine Path) (fd length : ℕ) (position : Option ℕ) :
    Except Code (List UInt8) × Engine Path :=
  match s.openFiles fd with
  | none => (.error .EBADF, s)
  | some file =>
      if file.flags.access = 1 then (.error .EBADF, s)
      else
        match s.held file with
        | .error e => (.error e, s)
        | .ok bytes =>
            let start := position.getD file.position
            let taken := (bytes.drop start).take length
            (.ok taken, s.setFile fd { file with
              cached := some bytes
              position := if position.isNone then start + taken.length else file.position })

def heldLength (s : Engine Path) (file : OpenFile Path) : Except Code ℕ :=
  match file.cached with
  | some bytes => .ok bytes.length
  | none =>
      match s.tree.getNode file.path with
      | .error e => .error e
      | .ok found => .ok ((found.map fun f => f.2.length).getD 0)

/-- `writeBuffer`. -/
def write (s : Engine Path) (fd : ℕ) (bytes : List UInt8) (position : Option ℕ) :
    Except Code ℕ × Engine Path :=
  match s.openFiles fd with
  | none => (.error .EBADF, s)
  | some file =>
      if file.flags.access = 0 then (.error .EBADF, s)
      else
        match s.heldLength file with
        | .error e => (.error e, s)
        | .ok length =>
            let start := position.getD file.position
            if file.flags.append || start == length then
              match s.tree.appendFileSync file.path bytes with
              | .error e => (.error e, s)
              | .ok tree =>
                  (.ok bytes.length, { s with tree := tree }.setFile fd { file with
                    cached := file.cached.map (· ++ bytes)
                    position := if position.isNone then length + bytes.length
                      else file.position })
            else
              match s.tree.writeAtSync file.path bytes start with
              | .error e => (.error e, s)
              | .ok tree =>
                  (.ok bytes.length, { s with tree := tree }.setFile fd { file with
                    cached := file.cached.map fun cached =>
                      if bytes = [] then cached else writtenAt cached bytes start
                    position := if position.isNone then start + bytes.length
                      else file.position })

/-- `new Uint8Array(length)` with as many of some bytes as it holds. -/
def resized (bytes : List UInt8) (length : ℕ) : List UInt8 :=
  bytes.take length ++ List.replicate (length - bytes.length) 0

def ftruncate (s : Engine Path) (fd length : ℕ) : Except Code Unit × Engine Path :=
  match s.openFiles fd with
  | none => (.error .EBADF, s)
  | some file =>
      if file.flags.access = 0 then (.error .EBADF, s)
      else
        match s.held file with
        | .error e => (.error e, s)
        | .ok bytes =>
            (.ok (), { s with tree := s.tree.writeFileSync file.path (resized bytes length) }.setFile
              fd { file with cached := some (resized bytes length) })

/-- The size `fstat` answers. -/
def fstat (s : Engine Path) (fd : ℕ) : Except Code ℕ :=
  match s.openFiles fd with
  | none => .error .EBADF
  | some file => (s.tree.readFileSync file.path).map List.length

/-- `readFileUtf8` of a descriptor, up to the decoding of its bytes. -/
def readFileUtf8 (s : Engine Path) (fd : ℕ) : Except Code (List UInt8) × Engine Path :=
  match s.fstat fd with
  | .error e => (.error e, s)
  | .ok size => s.read fd size none

/-- `readFileUtf8` of a path. -/
def readPathUtf8 (parent : Path → Option Code) (s : Engine Path) (path : Path) (flags : Flags) :
    Except Code (List UInt8) × Engine Path :=
  match s.openFile parent path flags with
  | (.error e, s) => (.error e, s)
  | (.ok fd, s) =>
      let r := s.readFileUtf8 fd
      (r.1, (r.2.close fd).2)

/-- `writeFileUtf8` of a path. -/
def writePathUtf8 (parent : Path → Option Code) (s : Engine Path) (path : Path) (flags : Flags)
    (bytes : List UInt8) : Except Code ℕ × Engine Path :=
  match s.openFile parent path flags with
  | (.error e, s) => (.error e, s)
  | (.ok fd, s) =>
      let r := s.write fd bytes none
      (r.1, (r.2.close fd).2)

def perform (parent : Path → Option Code) (s : Engine Path) :
    Op Path → Except Code Answer × Engine Path
  | .open path flags => let r := s.openFile parent path flags; (r.1.map .fd, r.2)
  | .close fd => let r := s.close fd; (r.1.map fun _ => .done, r.2)
  | .read fd length position => let r := s.read fd length position; (r.1.map .bytes, r.2)
  | .write fd bytes position => let r := s.write fd bytes position; (r.1.map .count, r.2)
  | .ftruncate fd length => let r := s.ftruncate fd length; (r.1.map fun _ => .done, r.2)
  | .fstat fd => ((s.fstat fd).map .size, s)
  | .readFileUtf8 fd => let r := s.readFileUtf8 fd; (r.1.map .bytes, r.2)
  | .readPathUtf8 path flags => let r := s.readPathUtf8 parent path flags; (r.1.map .bytes, r.2)
  | .writeFileUtf8 fd bytes => let r := s.write fd bytes none; (r.1.map fun _ => .done, r.2)
  | .writePathUtf8 path flags bytes =>
      let r := s.writePathUtf8 parent path flags bytes; (r.1.map fun _ => .done, r.2)
  | .writeFileSync path data => (.ok .done, { s with tree := s.tree.writeFileSync path data })
  | .appendFileSync path data =>
      match s.tree.appendFileSync path data with
      | .error e => (.error e, s)
      | .ok tree => (.ok .done, { s with tree := tree })

def performAll (parent : Path → Option Code) :
    Engine Path → List (Op Path) → List (Except Code Answer) × Engine Path
  | s, [] => ([], s)
  | s, op :: ops =>
      let r := s.perform parent op
      let rest := r.2.performAll parent ops
      (r.1 :: rest.1, rest.2)

end Engine

end OpenFiles

end Tabnode

/-!
## Open file descriptions

`Posix` is the reference: a description names the file it was opened on and has its own
offset, and every read and write of it is of the file's bytes as they are. `Suits` says
when a call of the binding is one of these.
-/

namespace Tabnode

namespace OpenFiles

variable {Path : Type}

/-- An open file description. -/
structure Description (Path : Type) where
  file : Path
  flags : Flags
  offset : ℕ

/-- The tree and the descriptions. -/
structure Posix (Path : Type) where
  tree : Tree Path
  descriptions : ℕ → Option (Description Path)
  nextFd : ℕ

namespace Posix

def new (tree : Tree Path) (nextFd : ℕ) : Posix Path :=
  { tree := tree, descriptions := fun _ => none, nextFd := nextFd }

variable [DecidableEq Path]

def setContent (n : Posix Path) (file : Path) (content : List UInt8) : Posix Path :=
  { n with tree := Function.update n.tree file (some (.file content)) }

def setDescription (n : Posix Path) (fd : ℕ) (d : Description Path) : Posix Path :=
  { n with descriptions := Function.update n.descriptions fd (some d) }

def allocate (n : Posix Path) (file : Path) (flags : Flags) : Except Code ℕ × Posix Path :=
  (.ok n.nextFd,
    { n with
      descriptions := Function.update n.descriptions n.nextFd
        (some { file := file, flags := flags, offset := 0 })
      nextFd := n.nextFd + 1 })

/-- `open`: a file that is not there is made where the path leads. -/
def openFile (parent : Path → Option Code) (n : Posix Path) (path : Path) (flags : Flags) :
    Except Code ℕ × Posix Path :=
  match n.tree.lead VirtualFS.linkBound path with
  | none => (.error .ELOOP, n)
  | some place =>
      match n.tree.fileAt place with
      | none =>
          if flags.create then
            match parent path with
            | some e => (.error e, n)
            | none => (n.setContent place []).allocate place flags
          else (.error .ENOENT, n)
      | some _ =>
          if flags.excl && flags.create then (.error .EEXIST, n)
          else if flags.truncate then (n.setContent place []).allocate place flags
          else n.allocate place flags

def close (n : Posix Path) (fd : ℕ) : Except Code Unit × Posix Path :=
  match n.descriptions fd with
  | none => (.error .EBADF, n)
  | some _ => (.ok (), { n with descriptions := Function.update n.descriptions fd none })

def content (n : Posix Path) (d : Description Path) : List UInt8 :=
  (n.tree.fileAt d.file).getD []

/-- `read` and `pread`. -/
def read (n : Posix Path) (fd length : ℕ) (position : Option ℕ) :
    Except Code (List UInt8) × Posix Path :=
  match n.descriptions fd with
  | none => (.error .EBADF, n)
  | some d =>
      if d.flags.access = 1 then (.error .EBADF, n)
      else
        let start := position.getD d.offset
        let taken := ((n.content d).drop start).take length
        (.ok taken, n.setDescription fd { d with
          offset := if position.isNone then start + taken.length else d.offset })

/-- `write` and `pwrite`: with `O_APPEND` at the file's end, else at the offset or the
position. -/
def write (n : Posix Path) (fd : ℕ) (bytes : List UInt8) (position : Option ℕ) :
    Except Code ℕ × Posix Path :=
  match n.descriptions fd with
  | none => (.error .EBADF, n)
  | some d =>
      if d.flags.access = 0 then (.error .EBADF, n)
      else
        let start := if d.flags.append then (n.content d).length else position.getD d.offset
        let n := if bytes = [] then n
          else n.setContent d.file (VirtualFS.writtenAt (n.content d) bytes start)
        (.ok bytes.length, n.setDescription fd { d with
          offset := if position.isNone then start + bytes.length else d.offset })

def ftruncate (n : Posix Path) (fd length : ℕ) : Except Code Unit × Posix Path :=
  match n.descriptions fd with
  | none => (.error .EBADF, n)
  | some d =>
      if d.flags.access = 0 then (.error .EINVAL, n)
      else
        (.ok (), n.setContent d.file ((n.content d).take length ++
          List.replicate (length - (n.content d).length) 0))

def fstat (n : Posix Path) (fd : ℕ) : Except Code ℕ :=
  match n.descriptions fd with
  | none => .error .EBADF
  | some d => .ok (n.content d).length

def readFileUtf8 (n : Posix Path) (fd : ℕ) : Except Code (List UInt8) × Posix Path :=
  match n.fstat fd with
  | .error e => (.error e, n)
  | .ok size => n.read fd size none

def readPathUtf8 (parent : Path → Option Code) (n : Posix Path) (path : Path) (flags : Flags) :
    Except Code (List UInt8) × Posix Path :=
  match n.openFile parent path flags with
  | (.error e, n) => (.error e, n)
  | (.ok fd, n) =>
      let r := n.readFileUtf8 fd
      (r.1, (r.2.close fd).2)

def writePathUtf8 (parent : Path → Option Code) (n : Posix Path) (path : Path) (flags : Flags)
    (bytes : List UInt8) : Except Code ℕ × Posix Path :=
  match n.openFile parent path flags with
  | (.error e, n) => (.error e, n)
  | (.ok fd, n) =>
      let r := n.write fd bytes none
      (r.1, (r.2.close fd).2)

def update (n : Posix Path) (path : Path) (f : List UInt8 → List UInt8) :
    Except Code Unit × Posix Path :=
  match n.tree.lead VirtualFS.linkBound path with
  | none => (.error .ELOOP, n)
  | some place => (.ok (), n.setContent place (f ((n.tree.fileAt place).getD [])))

def perform (parent : Path → Option Code) (n : Posix Path) :
    Op Path → Except Code Answer × Posix Path
  | .open path flags => let r := n.openFile parent path flags; (r.1.map .fd, r.2)
  | .close fd => let r := n.close fd; (r.1.map fun _ => .done, r.2)
  | .read fd length position => let r := n.read fd length position; (r.1.map .bytes, r.2)
  | .write fd bytes position => let r := n.write fd bytes position; (r.1.map .count, r.2)
  | .ftruncate fd length => let r := n.ftruncate fd length; (r.1.map fun _ => .done, r.2)
  | .fstat fd => ((n.fstat fd).map .size, n)
  | .readFileUtf8 fd => let r := n.readFileUtf8 fd; (r.1.map .bytes, r.2)
  | .readPathUtf8 path flags => let r := n.readPathUtf8 parent path flags; (r.1.map .bytes, r.2)
  | .writeFileUtf8 fd bytes => let r := n.write fd bytes none; (r.1.map fun _ => .done, r.2)
  | .writePathUtf8 path flags bytes =>
      let r := n.writePathUtf8 parent path flags bytes; (r.1.map fun _ => .done, r.2)
  | .writeFileSync path data => let r := n.update path fun _ => data; (r.1.map fun _ => .done, r.2)
  | .appendFileSync path data =>
      let r := n.update path fun content => content ++ data; (r.1.map fun _ => .done, r.2)

def performAll (parent : Path → Option Code) :
    Posix Path → List (Op Path) → List (Except Code Answer) × Posix Path
  | n, [] => ([], n)
  | n, op :: ops =>
      let r := n.perform parent op
      let rest := r.2.performAll parent ops
      (r.1 :: rest.1, rest.2)

end Posix

/-! ### Calls that suit -/

def Tree.Own (tree : Tree Path) (path : Path) : Prop :=
  ∀ target, tree path ≠ some (.link target)

def Current (tree : Tree Path) (file : OpenFile Path) : Prop :=
  ∀ bytes, file.cached = some bytes → tree.readFileSync file.path = .ok bytes

def OpenSuits (tree : Tree Path) (path : Path) (flags : Flags) : Prop :=
  flags.create = true ∧ tree.getNode path = .ok none ∨ flags.truncate = true → tree.Own path

/-- A descriptor that reads has no stale copy, and reads at its own position only where
that is the offset. -/
def ReadSuits (s : Engine Path) (n : Posix Path) (fd : ℕ) (position : Option ℕ) : Prop :=
  ∀ file d, s.openFiles fd = some file → n.descriptions fd = some d → file.flags.access ≠ 1 →
    Current s.tree file ∧ (position = none → file.position = d.offset)

/-- A descriptor that writes where its copy ends, not for `O_APPEND`, has a copy as long
as the file. -/
def WriteSuits (s : Engine Path) (fd : ℕ) (position : Option ℕ) : Prop :=
  ∀ file bytes content, s.openFiles fd = some file → file.flags.access ≠ 0 →
    file.flags.append = false → file.cached = some bytes →
      s.tree.readFileSync file.path = .ok content →
        position.getD file.position = bytes.length → bytes.length = content.length

/-- A descriptor that truncates has no stale copy, and its path is the file's own. -/
def TruncateSuits (s : Engine Path) (fd : ℕ) : Prop :=
  ∀ file, s.openFiles fd = some file → file.flags.access ≠ 0 →
    Current s.tree file ∧ s.tree.Own file.path

/-- A path that is read with `O_APPEND` names an empty file, or is truncated. -/
def StartSuits (tree : Tree Path) (path : Path) (flags : Flags) : Prop :=
  flags.append = true → flags.truncate = false →
    ∀ content, tree.readFileSync path = .ok content → content = []

def Suits (s : Engine Path) (n : Posix Path) : Op Path → Prop
  | .open path flags => OpenSuits s.tree path flags
  | .close _ | .fstat _ => True
  | .read fd _ position => ReadSuits s n fd position
  | .write fd _ position => WriteSuits s fd position
  | .ftruncate fd _ => TruncateSuits s fd
  | .readFileUtf8 fd => ReadSuits s n fd none
  | .readPathUtf8 path flags => OpenSuits s.tree path flags ∧ StartSuits s.tree path flags
  | .writeFileUtf8 fd _ => WriteSuits s fd none
  | .writePathUtf8 path flags _ => OpenSuits s.tree path flags
  | .writeFileSync path _ => s.tree.Own path
  | .appendFileSync path _ => s.tree.getNode path = .ok none → s.tree.Own path

variable [DecidableEq Path]

def AllSuit (parent : Path → Option Code) : Engine Path → Posix Path → List (Op Path) → Prop
  | _, _, [] => True
  | s, n, op :: ops =>
      Suits s n op ∧ AllSuit parent (s.perform parent op).2 (n.perform parent op).2 ops

/-- What calls are answered and leave is what the reference answers and leaves, but for
which error a call fails with. -/
def KeepsPosix (parent : Path → Option Code) (tree : Tree Path) (nextFd : ℕ)
    (ops : List (Op Path)) : Prop :=
  ((Engine.new tree nextFd).performAll parent ops).1.map Except.toOption =
      ((Posix.new tree nextFd).performAll parent ops).1.map Except.toOption ∧
    ((Engine.new tree nextFd).performAll parent ops).2.tree =
      ((Posix.new tree nextFd).performAll parent ops).2.tree

end OpenFiles

end Tabnode
