import Tabnode.Data.Base64
import Tabnode.SyncChild.Tree

/-!
# The tree a child's thread has

`ProxyVFS` is a `VirtualFS` whose methods cross to the parent, which answers them by
`answerFilesystem` from its own tree. A `Request` is such a crossing with what JSON
carries of its arguments, its index the shape of the answer. The methods that
`ProxyVFS` does not override are the base class's, on the proxy itself: their reads
and writes go through the overridden ones, and what else they touch is the proxy's own
tree, which is empty, and the stub a lookup keeps for a path.
-/

namespace Tabnode

namespace SyncChild

open VirtualFS

/-! ## What crosses -/

/-- A file's data as JSON carries it: a text, or bytes in base64. -/
inductive Wire where
  | text (units : List ℕ)
  | base64 (digits : List Char)

/-- `fromBytes`, and the parent's `base64`. -/
def fromBytes (content : List UInt8) : List Char := Base64.encode (content.map UInt8.toNat)

/-- `toBytes`, and the parent's `bytes`. -/
def toBytes (digits : List Char) : List UInt8 :=
  ((Base64.decode digits).getD []).map UInt8.ofNat

def Data.toWire : Data → Wire
  | .text units => .text units
  | .bytes content => .base64 (fromBytes content)

def Wire.toData : Wire → Data
  | .text units => .text units
  | .base64 digits => .bytes (toBytes digits)

def Value.toWire : Value → Wire
  | .text units => .text units
  | .bytes content => .base64 (fromBytes content)
  | _ => .text []

def Wire.toValue : Wire → Value
  | .text units => .text units
  | .base64 digits => .bytes (toBytes digits)

/-- What the parent answers of a stat; JSON has `null` for a time that is no number. -/
structure StatRecord where
  file : Bool
  dir : Bool
  link : Bool
  size : ℕ
  mode : ℕ
  ino : ℕ
  mtimeMs : Option JsNumber
  atimeMs : Option JsNumber
  ctimeMs : Option JsNumber
  birthtimeMs : Option JsNumber

/-- The number JSON carries of a `Date`. -/
def carriedMs (date : JsNumber) : Option JsNumber := if date.isFinite then some date else none

def statRecord (ino : ℕ) (stats : Stats) : StatRecord where
  file := stats.isFile
  dir := stats.isDirectory
  link := stats.isSymbolicLink
  size := stats.size
  mode := stats.mode
  ino := ino
  mtimeMs := carriedMs stats.mtime
  atimeMs := carriedMs stats.atime
  ctimeMs := carriedMs stats.ctime
  birthtimeMs := carriedMs stats.birthtime

/-- `new Date(ms)`, of a number or of `null`. -/
def dateOf (ms : Option JsNumber) : JsNumber := (ms.getD (.finite 0)).timeClip

def reviveStat (s : StatRecord) : Stats where
  isFile := s.file
  isDirectory := s.dir
  isSymbolicLink := s.link
  size := s.size
  mode := s.mode
  uid := 0
  gid := 0
  dev := 0
  ino := s.ino
  nlink := 1
  rdev := 0
  blksize := 4096
  blocks := (s.size + 511) / 512
  mtime := dateOf s.mtimeMs
  atime := dateOf s.atimeMs
  ctime := dateOf s.ctimeMs
  birthtime := dateOf s.birthtimeMs
  mtimeMs := s.mtimeMs
  atimeMs := s.atimeMs
  ctimeMs := s.ctimeMs
  birthtimeMs := s.birthtimeMs

/-- The methods that cross, with the shape of their answer. -/
inductive Request : Type → Type 1 where
  | existsSync (path : Str) : Request Bool
  | statSync (path : Str) : Request StatRecord
  | lstatSync (path : Str) : Request StatRecord
  | readFileSync (path : Str) (utf8 : Bool) : Request Wire
  | writeFileSync (path : Str) (data : Wire) : Request Unit
  | readdirSync (path : Str) : Request (List Name)
  | realpathSync (path : Str) : Request Str
  | readlinkSync (path : Str) : Request Str
  | symlinkSync (target path : Str) : Request Unit
  | mkdirSync (path : Str) (recursive : Bool) : Request Unit
  | unlinkSync (path : Str) : Request Unit
  | rmdirSync (path : Str) : Request Unit
  | renameSync (oldPath newPath : Str) : Request Unit
  | copyFileSync (src dest : Str) : Request Unit
  | accessSync (path : Str) : Request Unit

/-- The two tables of inodes: of a tree's nodes, and of the paths a child asked of. -/
structure Inodes where
  inodeFor : FSNode → Str → ℕ
  inodeOf : Str → ℕ

def answerFilesystem (env : Env) (inodes : Inodes) : {α : Type} → Request α → Fs α
  | _, .existsSync path => existsSync path
  | _, .statSync path => statRecord (inodes.inodeOf path) <$> statSync inodes.inodeFor path
  | _, .lstatSync path => statRecord (inodes.inodeOf path) <$> lstatSync inodes.inodeFor path
  | _, .readFileSync path utf8 =>
      (fun content => (readValue utf8 content).toWire) <$> VirtualFS.readFileSync path
  | _, .writeFileSync path data => VirtualFS.writeFileSync env path data.toData.content
  | _, .readdirSync path => readdirSync path
  | _, .realpathSync path => realpathSync path
  | _, .readlinkSync path => readlinkSync path
  | _, .symlinkSync target path => VirtualFS.symlinkSync env target path
  | _, .mkdirSync path recursive => VirtualFS.mkdirSync env path recursive
  | _, .unlinkSync path => VirtualFS.unlinkSync env path
  | _, .rmdirSync path => VirtualFS.rmdirSync env path
  | _, .renameSync oldPath newPath => VirtualFS.renameSync env oldPath newPath
  | _, .copyFileSync src dest => VirtualFS.copyFileSync env src dest
  | _, .accessSync path => accessSync path

/-! ## The proxy -/

/-- The stub a lookup keeps for a path. -/
structure Stub where
  isDirectory : Bool
  mtime : Option JsNumber
  atime : Option JsNumber
  mode : Option ℕ := none

def Stub.view (stub : Stub) : NodeView where
  isDirectory := stub.isDirectory
  content := none
  target := none
  children := none
  mtime := stub.mtime
  atime := stub.atime
  mode := stub.mode

/-- The parent, and the stubs of a child's proxy. -/
structure Child where
  parent : State
  stubs : List (Str × Stub)

abbrev Proxy := Effect Child FsError

/-- `call`: the parent answers, from the tree it is running on. -/
def call (env : Env) (inodes : Inodes) {α : Type} (request : Request α) : Proxy α :=
  fun child =>
    let answer := (answerFilesystem env inodes request).run child.parent
    (answer.1, { child with parent := answer.2 })

def stubOf (env : Env) (inodes : Inodes) (path : Str) : Proxy Stub := do
  let child ← Effect.get
  match OrderedMap.find path child.stubs with
  | some stub => pure stub
  | none => do
      let s ← reviveStat <$> call env inodes (.statSync path)
      let stub : Stub := { isDirectory := s.isDirectory, mtime := s.mtimeMs, atime := s.atimeMs }
      Effect.modify fun child => { child with stubs := OrderedMap.set path stub child.stubs }
      pure stub

/-- `getNode` of the proxy. -/
def Proxy.getNode (env : Env) (inodes : Inodes) (path : Str) : Proxy (Option Stub) := do
  let found ← call env inodes (.existsSync path)
  if found then some <$> stubOf env inodes path else pure none

def assignStub (path : Str) (f : Stub → Stub) : Proxy Unit :=
  Effect.modify fun child =>
    { child with stubs := child.stubs.map fun e => if e.1 = path then (path, f e.2) else e }

/-- `ProxyVFS.readFileSync`. -/
def Proxy.readFileSync (env : Env) (inodes : Inodes) (path : Str) (utf8 : Bool) : Proxy Value :=
  Wire.toValue <$> call env inodes (.readFileSync path utf8)

/-- `ProxyVFS.writeFileSync`. -/
def Proxy.writeFileSync (env : Env) (inodes : Inodes) (path : Str) (data : Data) : Proxy Unit :=
  call env inodes (.writeFileSync path data.toWire)

/-- `existsSync(path) ? readFileSync(path) : new Uint8Array(0)`. -/
def existing (env : Env) (inodes : Inodes) (path : Str) : Proxy (List UInt8) := do
  let found ← call env inodes (.existsSync path)
  if found then do
    match ← Proxy.readFileSync env inodes path false with
    | .bytes content => pure content
    | _ => pure []
  else pure []

/-- `appendFileSync` of a tree that keeps its files elsewhere. -/
def Proxy.appendFileSync (env : Env) (inodes : Inodes) (path : Str) (data : Data) : Proxy Unit := do
  let content ← existing env inodes path
  Proxy.writeFileSync env inodes path (.bytes (content ++ data.content))

/-- `whole.set(bytes, offset)`. -/
def setBytes (whole bytes : List UInt8) (offset : ℕ) : List UInt8 :=
  whole.take offset ++ bytes ++ whole.drop (offset + bytes.length)

/-- `writeAtSync` of a tree that keeps its files elsewhere. -/
def Proxy.writeAtSync (env : Env) (inodes : Inodes) (path : Str) (data : List UInt8)
    (position : ℤ) : Proxy Unit := do
  let content ← existing env inodes path
  let done ← if data = [] then call env inodes (.existsSync path) else pure false
  if done then pure ()
  else if position < 0 then Effect.throw .rangeError
  else
    let offset := position.toNat
    let whole := List.replicate (max content.length (offset + data.length)) 0
    Proxy.writeFileSync env inodes path (.bytes (setBytes (setBytes whole content 0) data offset))

def ownTree : FSNode := newDirectory (.finite 0)

/-- `chmodSync` of the base class, on the proxy. -/
def Proxy.chmodSync (env : Env) (inodes : Inodes) (path : Str) (mode : ℤ) : Proxy Unit := do
  Effect.lift (assertWritable ownTree path "chmod")
  match ← Proxy.getNode env inodes path with
  | none => Effect.throw (.node .ENOENT "chmod" path)
  | some _ => assignStub path fun stub => { stub with mode := some (mode % 4096).toNat }

/-- `utimesSync` of the base class, on the proxy. -/
def Proxy.utimesSync (env : Env) (inodes : Inodes) (path : Str) (atime mtime : TimeArg) :
    Proxy Unit := do
  Effect.lift (assertWritable ownTree path "utime")
  match ← Proxy.getNode env inodes path with
  | none => Effect.throw (.node .ENOENT "utimes" path)
  | some _ => do
      let atimeMs ← Effect.lift (unixMs env.now "atime" atime)
      assignStub path fun stub => { stub with atime := some atimeMs }
      let mtimeMs ← Effect.lift (unixMs env.now "mtime" mtime)
      assignStub path fun stub => { stub with mtime := some mtimeMs }

def proxied (env : Env) (inodes : Inodes) : SyncCall → Proxy Value
  | .existsSync path => .exists <$> call env inodes (.existsSync path)
  | .statSync path => (fun s => .stats (reviveStat s)) <$> call env inodes (.statSync path)
  | .lstatSync path => (fun s => .stats (reviveStat s)) <$> call env inodes (.lstatSync path)
  | .readFileSync path utf8 => Proxy.readFileSync env inodes path utf8
  | .writeFileSync path data => (fun _ => .done) <$> Proxy.writeFileSync env inodes path data
  | .appendFileSync path data => (fun _ => .done) <$> Proxy.appendFileSync env inodes path data
  | .writeAtSync path data position =>
      (fun _ => .done) <$> Proxy.writeAtSync env inodes path data position
  | .readdirSync path => .names <$> call env inodes (.readdirSync path)
  | .realpathSync path => .path <$> call env inodes (.realpathSync path)
  | .readlinkSync path => .path <$> call env inodes (.readlinkSync path)
  | .symlinkSync target path => (fun _ => .done) <$> call env inodes (.symlinkSync target path)
  | .mkdirSync path recursive => (fun _ => .done) <$> call env inodes (.mkdirSync path recursive)
  | .unlinkSync path => (fun _ => .done) <$> call env inodes (.unlinkSync path)
  | .rmdirSync path => (fun _ => .done) <$> call env inodes (.rmdirSync path)
  | .renameSync oldPath newPath => (fun _ => .done) <$> call env inodes (.renameSync oldPath newPath)
  | .copyFileSync src dest => (fun _ => .done) <$> call env inodes (.copyFileSync src dest)
  | .accessSync path => (fun _ => .done) <$> call env inodes (.accessSync path)
  | .chmodSync path mode => (fun _ => .done) <$> Proxy.chmodSync env inodes path mode
  | .utimesSync path atime mtime =>
      (fun _ => .done) <$> Proxy.utimesSync env inodes path atime mtime
  | .getNode path => (fun stub => .node (stub.map Stub.view)) <$> Proxy.getNode env inodes path

end SyncChild

end Tabnode
