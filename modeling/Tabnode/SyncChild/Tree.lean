import Tabnode.Data.Utf8Encoder
import Tabnode.StringDecoder.Encoding
import Tabnode.VirtualFS.Operations

/-!
# The synchronous operations of a tree

`SyncCall` lists the public synchronous operations with their arguments, and
`direct` is each of them on a `VirtualFS` with its answer. The mutating ones are
those of the filesystem's own development; the reading ones are here. What a stat
answers as an inode is the number its node was given, a parameter here.
-/

namespace Tabnode

namespace SyncChild

open VirtualFS

/-! ## Answers -/

/-- What a stat answers. A time is there as a `Date` and as its number of milliseconds,
which is absent where JSON has `null` for it. -/
structure Stats where
  isFile : Bool
  isDirectory : Bool
  isSymbolicLink : Bool
  size : ℕ
  mode : ℕ
  uid : ℕ
  gid : ℕ
  dev : ℕ
  ino : ℕ
  nlink : ℕ
  rdev : ℕ
  blksize : ℕ
  blocks : ℕ
  mtime : JsNumber
  atime : JsNumber
  ctime : JsNumber
  birthtime : JsNumber
  mtimeMs : Option JsNumber
  atimeMs : Option JsNumber
  ctimeMs : Option JsNumber
  birthtimeMs : Option JsNumber
  deriving DecidableEq

/-- A node as a caller reads it: the names of its children stand for the children. -/
structure NodeView where
  isDirectory : Bool
  content : Option (List UInt8)
  target : Option Str
  children : Option (List Name)
  mtime : Option JsNumber
  atime : Option JsNumber
  mode : Option ℕ
  deriving DecidableEq

/-- The values that are answered; `done` is that of an operation that answers nothing. -/
inductive Value where
  | done
  | exists (answer : Bool)
  | stats (stats : Stats)
  | bytes (content : List UInt8)
  | text (units : List ℕ)
  | names (names : List Name)
  | path (path : Str)
  | node (node : Option NodeView)
  deriving DecidableEq

/-- A file's data: a text, as its code units, or bytes. -/
inductive Data where
  | text (units : List ℕ)
  | bytes (content : List UInt8)

/-- `typeof data === 'string' ? encoder.encode(data) : data`. -/
def Data.content : Data → List UInt8
  | text units => Utf8.encode units
  | bytes content => content

/-- The public synchronous operations. A read is of text where its encoding is UTF-8. -/
inductive SyncCall where
  | existsSync (path : Str)
  | statSync (path : Str)
  | lstatSync (path : Str)
  | readFileSync (path : Str) (utf8 : Bool)
  | writeFileSync (path : Str) (data : Data)
  | appendFileSync (path : Str) (data : Data)
  | writeAtSync (path : Str) (data : List UInt8) (position : ℤ)
  | readdirSync (path : Str)
  | realpathSync (path : Str)
  | readlinkSync (path : Str)
  | symlinkSync (target path : Str)
  | mkdirSync (path : Str) (recursive : Bool)
  | unlinkSync (path : Str)
  | rmdirSync (path : Str)
  | renameSync (oldPath newPath : Str)
  | copyFileSync (src dest : Str)
  | accessSync (path : Str)
  | chmodSync (path : Str) (mode : ℤ)
  | utimesSync (path : Str) (atime mtime : TimeArg)
  | getNode (path : Str)

def errorCode : FsError → Option String
  | .node code _ _ => some code.text
  | .invalidArgType _ _ => some "ERR_INVALID_ARG_TYPE"
  | _ => none

/-! ## The reading operations -/

def childNames : Found → List Name
  | .here _ node => OrderedMap.keys node.children
  | .mounted _ _ answer => OrderedMap.keys answer.children

def nodeView (f : Found) : NodeView where
  isDirectory := decide (f.kind = .directory)
  content := f.kind.content?
  target := f.kind.target?
  children := if f.kind = .directory then some (childNames f) else none
  mtime := some f.attrs.mtime
  atime := f.attrs.atime
  mode := f.attrs.mode

def existsSync (path : Str) : Fs Bool := do
  let s ← Effect.get
  let node ← Effect.lift (VirtualFS.getNode s.root path)
  pure node.isSome

/-- The node of a stat, as `statSync` answers it. -/
def statOf (ino : ℕ) (f : Found) : Stats :=
  let size := (f.kind.content?.getD []).length
  let mtime := f.attrs.mtime
  let atime := f.attrs.atime.getD mtime
  { isFile := f.kind.content?.isSome
    isDirectory := decide (f.kind = .directory)
    isSymbolicLink := false
    size := size
    mode := f.attrs.mode.getD (if f.kind = .directory then 0o755 else 0o644)
    uid := 1000
    gid := 1000
    dev := 0
    ino := ino
    nlink := 1
    rdev := 0
    blksize := 4096
    blocks := (size + 511) / 512
    mtime := mtime.timeClip
    atime := atime.timeClip
    ctime := mtime.timeClip
    birthtime := mtime.timeClip
    mtimeMs := some mtime
    atimeMs := some atime
    ctimeMs := some mtime
    birthtimeMs := some mtime }

def unitLength (text : Str) : ℕ := (text.flatMap fun c => Utf8.units c.toNat).length

/-- A link, as `lstatSync` answers it. -/
def linkStatOf (ino : ℕ) (f : Found) : Stats :=
  let mtime := f.attrs.mtime
  let atime := f.attrs.atime.getD mtime
  { statOf ino f with
    isFile := false
    isDirectory := false
    isSymbolicLink := true
    size := unitLength (f.kind.target?.getD [])
    mode := 41471
    uid := 0
    gid := 0
    blocks := 0
    mtime := mtime.timeClip
    atime := atime.timeClip }

/-- `statSync`, with the inode of what is at the path. -/
def statSync (inodeFor : FSNode → Str → ℕ) (path : Str) : Fs Stats := do
  let s ← Effect.get
  let node ← Effect.lift (VirtualFS.getNode s.root path)
  match node with
  | none => Effect.throw (.node .ENOENT "stat" path)
  | some f => pure (statOf (inodeFor s.root path) f)

def lstatSync (inodeFor : FSNode → Str → ℕ) (path : Str) : Fs Stats := do
  let s ← Effect.get
  let node ← Effect.lift (lstatNode s.root path)
  match node with
  | none => Effect.throw (.node .ENOENT "lstat" path)
  | some f =>
      match f.kind with
      | .symlink _ => pure (linkStatOf (inodeFor s.root path) f)
      | _ => statSync inodeFor path

def readdirSync (path : Str) : Fs (List Name) := do
  let s ← Effect.get
  let node ← Effect.lift (VirtualFS.getNode s.root path)
  match node with
  | none => Effect.throw (.node .ENOENT "scandir" path)
  | some f =>
      if f.kind ≠ .directory then Effect.throw (.node .ENOTDIR "scandir" path)
      else pure (childNames f)

def readlinkSync (path : Str) : Fs Str := do
  let s ← Effect.get
  let node ← Effect.lift (lstatNode s.root path)
  match node with
  | none => Effect.throw (.node .ENOENT "readlink" path)
  | some f =>
      match f.kind with
      | .symlink target => pure target
      | _ => Effect.throw (.node .EINVAL "readlink" path)

def realpathSync (path : Str) : Fs Str := do
  let s ← Effect.get
  Effect.lift (VirtualFS.realpathSync s.root path)

def accessSync (path : Str) : Fs Unit := do
  let found ← existsSync path
  if found then pure () else Effect.throw (.node .ENOENT "access" path)

def getNode (path : Str) : Fs (Option NodeView) := do
  let s ← Effect.get
  let node ← Effect.lift (VirtualFS.getNode s.root path)
  pure (node.map nodeView)

def readValue (utf8 : Bool) (content : List UInt8) : Value :=
  if utf8 then .text (StringDecoder.utf8Slice content) else .bytes content

/-! ## A call on the tree itself -/

def direct (env : Env) (inodeFor : FSNode → Str → ℕ) : SyncCall → Fs Value
  | .existsSync path => .exists <$> existsSync path
  | .statSync path => .stats <$> statSync inodeFor path
  | .lstatSync path => .stats <$> lstatSync inodeFor path
  | .readFileSync path utf8 => readValue utf8 <$> VirtualFS.readFileSync path
  | .writeFileSync path data => (fun _ => .done) <$> VirtualFS.writeFileSync env path data.content
  | .appendFileSync path data => (fun _ => .done) <$> VirtualFS.appendFileSync env path data.content
  | .writeAtSync path data position =>
      (fun _ => .done) <$> VirtualFS.writeAtSync env path data position
  | .readdirSync path => .names <$> readdirSync path
  | .realpathSync path => .path <$> realpathSync path
  | .readlinkSync path => .path <$> readlinkSync path
  | .symlinkSync target path => (fun _ => .done) <$> VirtualFS.symlinkSync env target path
  | .mkdirSync path recursive => (fun _ => .done) <$> VirtualFS.mkdirSync env path recursive
  | .unlinkSync path => (fun _ => .done) <$> VirtualFS.unlinkSync env path
  | .rmdirSync path => (fun _ => .done) <$> VirtualFS.rmdirSync env path
  | .renameSync oldPath newPath => (fun _ => .done) <$> VirtualFS.renameSync env oldPath newPath
  | .copyFileSync src dest => (fun _ => .done) <$> VirtualFS.copyFileSync env src dest
  | .accessSync path => (fun _ => .done) <$> accessSync path
  | .chmodSync path mode => (fun _ => .done) <$> VirtualFS.chmodSync env path mode
  | .utimesSync path atime mtime => (fun _ => .done) <$> VirtualFS.utimesSync env path atime mtime
  | .getNode path => .node <$> getNode path

end SyncChild

end Tabnode
