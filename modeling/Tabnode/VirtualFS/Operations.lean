import Tabnode.Data.Effect
import Tabnode.VirtualFS.Resolve

/-!
# Operations of the filesystem

The mutating methods, in the source's order of checks, edits and events. A node
the source holds a reference to is named by its place: nothing outside the tree
shares a node of it, so the place is the reference. A node a mounted tree
answered is made for the answer, and an edit of it is not kept anywhere.

`Env` is what a call finds around it: the clock, the frames left on the
engine's call stack (only `ensureDirectory` recurses without a bound of its
own), and whether anyone listens to the two events. Watchers are not modelled;
nothing here reads them.
-/

namespace Tabnode

namespace VirtualFS

open Effect

/-- What a call finds around it. -/
structure Env where
  now : JsNumber
  stack : ℕ
  changeListened : Bool
  deleteListened : Bool

/-- An event for a host that keeps an index of the tree. A change carries the
bytes whose text it gives, none for a directory or a link. -/
inductive Event where
  | change (path : Str) (content : List UInt8)
  | delete (path : Str)
  deriving DecidableEq

/-- The tree, and the events emitted so far. -/
structure State where
  root : FSNode
  events : List Event

abbrev Fs := Effect State FsError

def State.new (now : JsNumber) : State := { root := newDirectory now, events := [] }

/-! ## Edits and events -/

def edit (f : FSNode → FSNode) : Fs Unit :=
  Effect.modify fun s => { s with root := f s.root }

def Env.hears (env : Env) : Event → Bool
  | .change _ _ => env.changeListened
  | .delete _ => env.deleteListened

def emit (env : Env) (event : Event) : Fs Unit :=
  if env.hears event then
    Effect.modify fun s => { s with events := s.events ++ [event] }
  else pure ()

def emitChanged (env : Env) (path : Str) : Fs Unit := do
  if env.changeListened then
    let s ← Effect.get
    let node ← lift (lstatNode s.root path)
    emit env (.change path ((node.bind fun n => n.kind.content?).getD []))
  else pure ()

def Answer.toNode (answer : Answer) : FSNode :=
  answer.map fun a => { toAttrs := a, mount := none }

/-- `node.children.get(name)`. -/
def Found.child? (f : Found) (name : Name) : Option FSNode :=
  match f with
  | .here _ node => node.child? name
  | .mounted _ _ answer => (answer.child? name).map Answer.toNode

/-- The tree after `parent.children.set(name, node)`. -/
def Found.put (f : Found) (name : Name) (child root : FSNode) : FSNode :=
  match f with
  | .here place _ => root.put place name child
  | .mounted _ _ _ => root

/-- The tree after `parent.children.delete(name)`. -/
def Found.remove (f : Found) (name : Name) (root : FSNode) : FSNode :=
  match f with
  | .here place _ => root.remove place name
  | .mounted _ _ _ => root

def assign (place : Place) (g : Attrs → Attrs) (root : FSNode) : FSNode :=
  root.relabel place fun e => { e with toAttrs := g e.toAttrs }

def Found.assign (f : Found) (g : Attrs → Attrs) (root : FSNode) : FSNode :=
  match f with
  | .here place _ => VirtualFS.assign place g root
  | .mounted _ _ _ => root

/-- The directory an operation on an entry works in: `getNode(parentPath)` and
the two checks every such operation makes of it. -/
def parentDirectory (root : FSNode) (parentPath : Str) (missing notDirectory : FsError) :
    Except FsError Found := do
  let parent ← getNode root parentPath
  match parent with
  | none => .error missing
  | some parent => if parent.kind ≠ Kind.directory then .error notDirectory else .ok parent

/-! ## Directories on the way -/

/-- The loop of `ensureDirectory` from a directory it has reached by `names`.
`again` is the method itself, called on the path a link makes. -/
def ensureFrom (env : Env) (path : Str) (again : Str → Fs Place) :
    List Name → List Name → Fs Place
  | names, [] => pure names
  | names, segment :: rest => do
      let s ← Effect.get
      match s.root.get? (names ++ [segment]) with
      | none => do
          edit fun root => root.put names segment (newDirectory env.now)
          emitChanged env (absolute (names ++ [segment]))
          ensureFrom env path again (names ++ [segment]) rest
      | some child =>
          match child.label.kind with
          | .symlink target =>
              again (afterLink
                (substrateLinkTarget (absolute (names ++ [segment])) target) rest)
          | .file _ => Effect.throw (.plain "ENOTDIR: not a directory" path)
          | .directory => ensureFrom env path again (names ++ [segment]) rest

/-- Get or create the directory at a path, as `mkdir -p` does; its place. -/
def ensureDirectory (env : Env) : ℕ → Str → Fs Place
  | 0, _ => Effect.throw .rangeError
  | stack + 1, path =>
      ensureFrom env path (ensureDirectory env stack) [] (getPathSegments path)

/-! ## Files -/

def writeFileSyncInternal (env : Env) (path : Str) (data : List UInt8)
    (emitEvent : Bool) : Fs Unit := do
  let normalized := normalizePath path
  let s ← Effect.get
  lift (assertWritable s.root normalized "open")
  let parentPath := getParentPath normalized
  let basename := getBasename normalized
  if basename = [] then
    Effect.throw (.plain "EISDIR: illegal operation on a directory" path)
  else
    let parent ← ensureDirectory env env.stack parentPath
    let s ← Effect.get
    if (s.root.label? (parent ++ [basename])).any Entry.isFile then
      -- a write changes a file's bytes; it does not make a new file
      edit (assign (parent ++ [basename])
        fun a => { a with kind := .file data, mtime := env.now })
    else edit fun root => root.put parent basename (newFile data env.now)
    if emitEvent then emit env (.change normalized data) else pure ()

def writeFileSync (env : Env) (path : Str) (data : List UInt8) : Fs Unit :=
  writeFileSyncInternal env path data true

def readFileSync (path : Str) : Fs (List UInt8) := do
  let s ← Effect.get
  let node ← lift (getNode s.root path)
  match node with
  | none => Effect.throw (.node .ENOENT "open" path)
  | some f =>
      match f.kind with
      | .file content => pure content
      | _ => Effect.throw (.node .EISDIR "read" path)

def appendFileSync (env : Env) (path : Str) (bytes : List UInt8) : Fs Unit := do
  let normalized := normalizePath path
  let s ← Effect.get
  let node ← lift (getNode s.root normalized)
  match node with
  | none => writeFileSyncInternal env normalized bytes true
  | some f =>
      match f.kind with
      | .file content => do
          lift (assertWritable s.root normalized "open")
          edit (f.assign fun a => { a with kind := .file (content ++ bytes), mtime := env.now })
          emit env (.change normalized (content ++ bytes))
      | _ => Effect.throw (.node .EISDIR "open" path)

/-- Bytes of a file after a write at a position: a gap reads as zeros, and the
rest is overwritten in place. -/
def writtenAt (content data : List UInt8) (position : ℕ) : List UInt8 :=
  (content ++ List.replicate (position - content.length) 0).take position ++ data ++
    content.drop (position + data.length)

/-- Bytes written into a file at a position. A negative one is refused by the
array the bytes are set into. -/
def writeAtSync (env : Env) (path : Str) (data : List UInt8) (position : ℤ) :
    Fs Unit := do
  let normalized := normalizePath path
  let s ← Effect.get
  let node ← lift (getNode s.root normalized)
  match node with
  | none =>
      if position < 0 then Effect.throw .rangeError
      else writeFileSyncInternal env normalized (writtenAt [] data position.toNat) true
  | some f =>
      match f.kind with
      | .file content => do
          lift (assertWritable s.root normalized "open")
          -- a write of no bytes changes nothing, past the end included
          if data = [] then pure ()
          else if position < 0 then Effect.throw .rangeError
          else do
            let written := writtenAt content data position.toNat
            edit (f.assign fun a => { a with kind := .file written, mtime := env.now })
            emit env (.change normalized written)
      | _ => Effect.throw (.node .EISDIR "open" path)

def copyFileSync (env : Env) (src dest : Str) : Fs Unit := do
  let content ← readFileSync src
  writeFileSync env dest content

def unlinkSync (env : Env) (path : Str) : Fs Unit := do
  let normalized := normalizePath path
  let s ← Effect.get
  lift (assertWritable s.root normalized "unlink")
  let basename := getBasename normalized
  let parent ← lift (parentDirectory s.root (getParentPath normalized)
    (.node .ENOENT "unlink" path) (.node .ENOENT "unlink" path))
  match parent.child? basename with
  | none => Effect.throw (.node .ENOENT "unlink" path)
  | some node =>
      if node.label.kind = Kind.directory then Effect.throw (.node .EISDIR "unlink" path)
      else do
        edit (parent.remove basename)
        emit env (.delete normalized)

/-! ## Directories and links -/

def mkdirSync (env : Env) (path : Str) (recursive : Bool) : Fs Unit := do
  let normalized := normalizePath path
  let s ← Effect.get
  -- `mkdir -p` of a directory that is there, a mount point among them, is done
  let present ←
    if recursive then do
      let node ← lift (getNode s.root normalized)
      pure (decide (node.map Found.kind = some Kind.directory))
    else pure false
  if present then pure ()
  else do
    lift (assertWritable s.root normalized "mkdir")
    if recursive then do
      let _ ← ensureDirectory env env.stack normalized
      pure ()
    else
      let parentPath := getParentPath normalized
      let basename := getBasename normalized
      if basename = [] then pure ()
      else do
        let parent ← lift (parentDirectory s.root parentPath
          (.node .ENOENT "mkdir" parentPath) (.node .ENOTDIR "mkdir" parentPath))
        if (parent.child? basename).isSome then Effect.throw (.node .EEXIST "mkdir" path)
        else do
          edit (parent.put basename (newDirectory env.now))
          emitChanged env normalized

def symlinkSync (env : Env) (target path : Str) : Fs Unit := do
  let normalized := normalizePath path
  let s ← Effect.get
  lift (assertWritable s.root normalized "symlink")
  let basename := getBasename normalized
  let parent ← lift (parentDirectory s.root (getParentPath normalized)
    (.node .ENOENT "symlink" path) (.node .ENOENT "symlink" path))
  if (parent.child? basename).isSome then Effect.throw (.node .EEXIST "symlink" path)
  else do
    edit (parent.put basename (newSymlink target env.now))
    emitChanged env normalized

def rmdirSync (env : Env) (path : Str) : Fs Unit := do
  let normalized := normalizePath path
  let s ← Effect.get
  lift (assertWritable s.root normalized "rmdir")
  let basename := getBasename normalized
  if basename = [] then
    Effect.throw (.plain "EPERM: operation not permitted" path)
  else do
    let parent ← lift (parentDirectory s.root (getParentPath normalized)
      (.node .ENOENT "rmdir" path) (.node .ENOENT "rmdir" path))
    match parent.child? basename with
    | none => Effect.throw (.node .ENOENT "rmdir" path)
    | some node =>
        if node.label.kind ≠ Kind.directory then Effect.throw (.node .ENOTDIR "rmdir" path)
        else if node.children ≠ [] then Effect.throw (.node .ENOTEMPTY "rmdir" path)
        else do
          edit (parent.remove basename)
          emit env (.delete normalized)

/-! ## Rename -/

def childPath (path : Str) (name : Name) : Str :=
  if path = ['/'] then '/' :: name else path ++ '/' :: name

mutual

/-- Every path in a subtree, the subtree's root first, as it is named under a
path. -/
def subtreePaths (path : Str) : FSNode → List Str
  | .node e children =>
      path :: (if e.kind = Kind.directory then childrenPaths path children else [])

/-- The loop of `subtreePaths` over the children. -/
def childrenPaths (path : Str) : List (Name × FSNode) → List Str
  | [] => []
  | (name, child) :: children =>
      subtreePaths (childPath path name) child ++ childrenPaths path children

end

def Found.childPlace (f : Found) (name : Name) : Option Place :=
  match f with
  | .here place _ => some (place ++ [name])
  | .mounted _ _ _ => none

/-- The paths a move takes away, each after those below it: the moved subtree's
old ones, and those of an entry it replaced that the moved subtree does not make
again. -/
def gonePaths (oldPath newPath : Str) (node : FSNode) (replaced : Option FSNode) :
    List Str :=
  let made := subtreePaths newPath node
  let replacedPaths :=
    match replaced with
    | some replaced => (subtreePaths newPath replaced).filter fun p => decide (p ∉ made)
    | none => []
  (subtreePaths oldPath node ++ replacedPaths).reverse

def renameSync (env : Env) (oldPath newPath : Str) : Fs Unit := do
  let normalizedOld := normalizePath oldPath
  let normalizedNew := normalizePath newPath
  let s ← Effect.get
  lift (assertWritable s.root normalizedOld "rename")
  lift (assertWritable s.root normalizedNew "rename")
  let oldBasename := getBasename normalizedOld
  let newBasename := getBasename normalizedNew
  let oldParent ← lift (parentDirectory s.root (getParentPath normalizedOld)
    (.node .ENOENT "rename" oldPath) (.node .ENOENT "rename" oldPath))
  match oldParent.child? oldBasename with
  | none => Effect.throw (.node .ENOENT "rename" oldPath)
  | some node => do
      let newParent ← ensureDirectory env env.stack (getParentPath normalizedNew)
      let s ← Effect.get
      -- what the new name held, the moved entry itself not counted
      let replaced :=
        (oldParent.remove oldBasename s.root).get? (newParent ++ [newBasename])
      edit (oldParent.remove oldBasename)
      edit fun root => root.put newParent newBasename node
      match oldParent.childPlace oldBasename with
      | some oldPlace =>
          if oldPlace <+: newParent then
            -- the directory now holds itself: its subtree's paths have no end
            Effect.throw .rangeError
          else announce normalizedOld normalizedNew node replaced
      | none => announce normalizedOld normalizedNew node replaced
where
  /-- The events of a move. -/
  announce (normalizedOld normalizedNew : Str) (node : FSNode)
      (replaced : Option FSNode) : Fs Unit := do
    forEach (fun p => emit env (.delete p))
      (gonePaths normalizedOld normalizedNew node replaced)
    forEach (emitChanged env) (subtreePaths normalizedNew node)

/-! ## Modes and times -/

def chmodSync (env : Env) (path : Str) (mode : ℤ) : Fs Unit := do
  let s ← Effect.get
  lift (assertWritable s.root path "chmod")
  let node ← lift (getNode s.root path)
  match node with
  | none => Effect.throw (.node .ENOENT "chmod" path)
  | some f => do
      -- `mode & 0o7777`
      edit (f.assign fun a => { a with mode := some (mode % 4096).toNat })
      emitChanged env (normalizePath path)

/-- A time as a caller gives it: a string with the number it reads as (not a
number where it reads as none), a number, a `Date` of a number of milliseconds,
or another value with its type's name. -/
inductive TimeArg where
  | text (value : JsNumber)
  | number (value : JsNumber)
  | date (ms : JsNumber)
  | other (type : String)

def unixMs (now : JsNumber) (name : String) : TimeArg → Except FsError JsNumber
  | .text .nan => .error (.invalidArgType name "string")
  | .text value => .ok value.timesThousand
  | .number (.finite x) => .ok (if x < 0 then now else (JsNumber.finite x).timesThousand)
  | .number _ => .error (.invalidArgType name "number")
  | .date ms => .ok ms.timeClip
  | .other type => .error (.invalidArgType name type)

def utimesSync (env : Env) (path : Str) (atime mtime : TimeArg) : Fs Unit := do
  let s ← Effect.get
  lift (assertWritable s.root path "utime")
  let node ← lift (getNode s.root path)
  match node with
  | none => Effect.throw (.node .ENOENT "utimes" path)
  | some f => do
      let atimeMs ← lift (unixMs env.now "atime" atime)
      edit (f.assign fun a => { a with atime := some atimeMs })
      let mtimeMs ← lift (unixMs env.now "mtime" mtime)
      edit (f.assign fun a => { a with mtime := mtimeMs })
      emitChanged env (normalizePath path)

/-! ## Mounts -/

def mount (env : Env) (path : Str) (tree : MountedTree) : Fs Unit := do
  let normalized := normalizePath path
  let basename := getBasename normalized
  if basename = [] then Effect.throw (.node .EINVAL "mount" path)
  else do
    let parent ← ensureDirectory env env.stack (getParentPath normalized)
    let s ← Effect.get
    match s.root.get? (parent ++ [basename]) with
    | some existing =>
        if existing.label.kind ≠ Kind.directory ∨ existing.label.mount.isSome ∨
            existing.children ≠ [] then
          Effect.throw (.node .EEXIST "mount" path)
        else edit fun root => root.put parent basename (mountPoint tree env.now)
    | none => edit fun root => root.put parent basename (mountPoint tree env.now)

/-- The answer of `mount`, called: the mount point at a place goes. -/
def unmount (parent : Place) (basename : Name) : Fs Unit := do
  let s ← Effect.get
  if (s.root.label? (parent ++ [basename])).any fun e => e.mount.isSome then
    edit fun root => root.remove parent basename
  else pure ()

end VirtualFS

end Tabnode
