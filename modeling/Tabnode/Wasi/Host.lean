import Tabnode.Data.ByteHeap
import Tabnode.Data.ByteNumber
import Tabnode.Data.Effect
import Tabnode.Data.JsNumber
import Tabnode.Data.Utf8Encoder
import Tabnode.VirtualFS.Path
import Tabnode.Wasi.Rights

/-!
# The host and the guest's memory

What a syscall works on: the descriptor table, the guest's memory, and the host, which is
any machine that answers the calls of the engine's `fs` and of the guest's process. The
world also keeps the history of what the syscalls asked and touched, in order.
-/

namespace Tabnode

namespace Wasi

/-! ## Numbers -/

/-- The double nearest to an integer, which is an integer too: `Number(n)` of a `BigInt`,
and the sum of two doubles that are integers. -/
def nearest (n : ℤ) : ℤ :=
  let ulp : ℤ := 2 ^ (Nat.log2 n.natAbs - 52)
  JsNumber.roundTiesEven (n / ulp : ℚ) * ulp

def valueOf : JsNumber → ℚ
  | .finite x => x
  | _ => 0

/-! ## The host -/

/-- The stats the engine's fs answers, a time either in milliseconds or as a `Date`. -/
structure HostStats where
  size : ℕ := 0
  ino : Option ℕ := none
  dev : Option ℕ := none
  nlink : Option ℕ := none
  atimeMs : Option JsNumber := none
  mtimeMs : Option JsNumber := none
  ctimeMs : Option JsNumber := none
  atime : Option JsNumber := none
  mtime : Option JsNumber := none
  ctime : Option JsNumber := none
  isFile : Bool := false
  isDirectory : Bool := false
  isSymbolicLink : Bool := false
  isCharacterDevice : Bool := false
  isBlockDevice : Bool := false
  isSocket : Bool := false
  isFIFO : Bool := false

structure HostDirent where
  name : Str
  isFile : Bool
  isDirectory : Bool
  isSymbolicLink : Bool

/-- A stream of the guest's process. -/
inductive Stream where
  | stdin | stdout | stderr
  deriving DecidableEq, Repr

/-- A call of the engine's fs, of the guest's process, of a clock or of the random source.
A read asks for bytes into a buffer of `length`, and a write gives the bytes. -/
inductive HostCall where
  | existsSync (path : Str)
  | statSync (path : Str)
  | lstatSync (path : Str)
  | fstatSync (fd : ℕ)
  | openSync (path : Str) (flags mode : ℕ)
  | closeSync (fd : ℕ)
  | readSync (fd length : ℕ) (position : ℤ)
  | writeSync (fd : ℕ) (bytes : List UInt8) (position : ℤ)
  | readdirSync (path : Str)
  | mkdirSync (path : Str)
  | rmdirSync (path : Str)
  | unlinkSync (path : Str)
  | renameSync (oldPath newPath : Str)
  | realpathSync (path : Str)
  | ftruncateSync (fd : ℕ) (length : ℤ)
  | utimesSync (path : Str) (atime mtime : JsNumber)
  | readlinkSync (path : Str)
  | symlinkSync (target path : Str)
  | readStream
  | writeStream (stream : Stream) (bytes : List UInt8)
  | realtime
  | monotonic
  | sleep (nanos : ℤ)
  | random (length : ℕ)
  | exit (code : ℕ)
  | kill (signal : String)

@[reducible] def HostCall.Answer : HostCall → Type
  | existsSync _ => Bool
  | statSync _ | lstatSync _ | fstatSync _ => HostStats
  | openSync _ _ _ | writeSync _ _ _ => ℕ
  | readSync _ _ _ | random _ => List UInt8
  | readdirSync _ => List HostDirent
  | realpathSync _ | readlinkSync _ => Str
  | readStream => Option (List UInt8)
  | realtime | monotonic => ℚ
  | closeSync _ | mkdirSync _ | rmdirSync _ | unlinkSync _ | renameSync _ _
  | ftruncateSync _ _ | utimesSync _ _ _ | symlinkSync _ _ | writeStream _ _ | sleep _
  | exit _ | kill _ => Unit

/-- A host: a machine that answers each call with a value or by throwing, and what it has
of the members that are optional. -/
structure Host (η : Type) where
  answer : η → (call : HostCall) → Except HostError call.Answer × η
  isTTY : Stream → Bool
  hasUtimes : Bool
  hasReadlink : Bool
  hasSymlink : Bool

/-! ## The world -/

inductive DescriptorKind where
  | stream (stream : Stream)
  | file (fd : ℕ)
  | dir
  deriving DecidableEq, Repr

/-- One WASI descriptor. `id` and `lineage` are its identity and those of the descriptors
it was opened under, the nearest first, which the source has as the object itself. -/
structure Descriptor where
  kind : DescriptorKind
  path : Str
  hostPath : Str
  type : FileType
  rightsBase : Rights
  rightsInheriting : Rights
  preopen : Bool
  fdflags : ℕ
  position : ℤ
  id : ℕ
  lineage : List ℕ
  deriving DecidableEq

/-- Something a syscall did: a touch of the guest's memory, or a call of the host, with the
state the host was in. -/
inductive Event (η : Type) where
  | load (offset size : ℕ)
  | store (offset size : ℕ)
  | call (before : η) (call : HostCall)

/-- What a wrap instance holds, the guest's memory, the host, and the history. `nextId` is
the identity of the next descriptor. -/
structure World (η : Type) where
  args : List Str
  env : List Str
  table : List (ℕ × Descriptor)
  nextId : ℕ
  stdinPending : List UInt8
  stdinEnded : Bool
  memory : List UInt8
  host : η
  history : List (Event η)

/-- How a syscall ends before its last line: it answers an errno, or something is thrown. -/
inductive Stop where
  | answer (errno : Errno)
  | thrown (error : HostError)
  deriving DecidableEq

abbrev Syscall (η α : Type) := Effect (World η) Stop α

variable {η : Type}

/-- `return errno`. -/
def answer {α : Type} (errno : Errno) : Syscall η α := Effect.throw (.answer errno)

def require (condition : Bool) (errno : Errno) : Syscall η Unit :=
  if condition then pure () else answer errno

def ask (host : Host η) (call : HostCall) : Syscall η call.Answer := fun w =>
  let w' := { w with
    host := (host.answer w.host call).2, history := w.history ++ [.call w.host call] }
  match (host.answer w.host call).1 with
  | .ok a => (.ok a, w')
  | .error e => (.error (.thrown e), w')

/-- `try { … } catch (error) { … }`, which lets a `return` in its block through. -/
def catching {α : Type} (x : Syscall η α) (handler : HostError → Syscall η α) : Syscall η α :=
  fun w =>
    match x w with
    | (.error (.thrown e), w') => handler e w'
    | result => result

/-- `try { … } catch { }`: nothing, where something is thrown. -/
def attempt {α : Type} (x : Syscall η α) : Syscall η (Option α) :=
  catching (some <$> x) fun _ => pure none

/-! ## The guest's memory -/

/-- `GuestMemory.fits`. -/
def World.fits (w : World η) (offset size : ℕ) : Bool := offset + size ≤ w.memory.length

/-- Answer `EOVERFLOW` unless a range is in the memory. -/
def checkFits (offset size : ℕ) : Syscall η Unit := do
  let w ← Effect.get
  require (w.fits offset size) .EOVERFLOW

def load (offset size : ℕ) : Syscall η (List UInt8) := fun w =>
  if w.fits offset size then
    (.ok ((w.memory.drop offset).take size),
      { w with history := w.history ++ [.load offset size] })
  else (.error (.thrown rangeError), w)

def store (offset : ℕ) (bytes : List UInt8) : Syscall η Unit := fun w =>
  if w.fits offset bytes.length then
    (.ok (), { w with
      memory := ByteHeap.overwrite w.memory offset bytes,
      history := w.history ++ [.store offset bytes.length] })
  else (.error (.thrown rangeError), w)

/-- `GuestMemory.bytesAt`, a `subarray`: cut off where the memory ends. -/
def bytesAt (offset length : ℕ) : Syscall η (List UInt8) := fun w =>
  let bytes := (w.memory.drop offset).take length
  (.ok bytes, { w with history := w.history ++ [.load offset bytes.length] })

def loadNumber (size offset : ℕ) : Syscall η ℕ := ByteNumber.ofLittle <$> load offset size

def u8 (offset : ℕ) : Syscall η ℕ := loadNumber 1 offset
def u16 (offset : ℕ) : Syscall η ℕ := loadNumber 2 offset
def u32 (offset : ℕ) : Syscall η ℕ := loadNumber 4 offset
def u64 (offset : ℕ) : Syscall η ℕ := loadNumber 8 offset

def storeNumber (size offset : ℕ) (value : ℤ) : Syscall η Unit :=
  store offset (ByteNumber.toLittle size (value % 256 ^ size).toNat)

def setU8 (offset : ℕ) (value : ℤ) : Syscall η Unit := storeNumber 1 offset value
def setU16 (offset : ℕ) (value : ℤ) : Syscall η Unit := storeNumber 2 offset value
def setU32 (offset : ℕ) (value : ℤ) : Syscall η Unit := storeNumber 4 offset value
def setU64 (offset : ℕ) (value : ℤ) : Syscall η Unit := storeNumber 8 offset value

/-- `new TextDecoder().decode(bytes)`, which drops a byte order mark. -/
def decodeText (bytes : List UInt8) : Str :=
  let codePoints := Utf8.run .initial bytes
  (if codePoints.head? = some 0xFEFF then codePoints.tail else codePoints).map Char.ofNat

/-- `new TextEncoder().encode(text)`. -/
def encodeText (text : Str) : List UInt8 := text.flatMap fun c => Utf8.encodePoint c.toNat

/-- `GuestMemory.text`. -/
def text (offset length : ℕ) : Syscall η Str := decodeText <$> bytesAt offset length

end Wasi

end Tabnode

/-!
## Paths under a descriptor

A guest's path is normalized against the descriptor's, refused where it leaves the
descriptor's tree, and mapped to a path of the host. When asked to, `resolve` follows the
links at the path, each target resolved the same way.
-/

namespace Tabnode

namespace Wasi

/-! ### Names alone -/

/-- One step of the loop of `normalizePath` over the parts of a path. -/
def foldPart (isAbsolute : Bool) (out : List Str) (segment : Str) : List Str :=
  if segment = [] ∨ segment = ['.'] then out
  else if segment = ['.', '.'] then
    if out.getLast? = none ∨ out.getLast? = some ['.', '.'] then
      if isAbsolute then out else out ++ [['.', '.']]
    else out.dropLast
  else out ++ [segment]

/-- `uvwasi__normalize_path`: `.` and `..` folded, a leading `..` kept on a relative path. -/
def normalizePath (path : Str) : Str :=
  let isAbsolute := ['/'].isPrefixOf path
  let out := (path.splitOn '/').foldl (foldPart isAbsolute) []
  if out = [] then (if isAbsolute then ['/'] else ['.'])
  else (if isAbsolute then ['/'] else []) ++ VirtualFS.joinSlash out

/-- A relative path that does not begin with `..`. -/
def staysBelow (path : Str) : Bool :=
  !(path = ['.', '.'] || ['.', '.', '/'].isPrefixOf path)

/-- `uvwasi__is_path_sandboxed`: does a normalized path stay under the descriptor's? -/
def isSandboxed (path fdPath : Str) : Bool :=
  if ['/'].isPrefixOf fdPath then
    if fdPath = ['/'] then ['/'].isPrefixOf path
    else path = fdPath || (fdPath ++ ['/']).isPrefixOf path
  else if fdPath = ['.'] then staysBelow path
  else if path = fdPath || (fdPath ++ ['/']).isPrefixOf path then
    staysBelow (path.drop (fdPath.length + 1))
  else false

def dirnameOf (path : Str) : Str :=
  match VirtualFS.lastIndexOf '/' path with
  | none => ['.']
  | some 0 => ['/']
  | some i => path.take i

def hostPathOf (descriptor : Descriptor) (guestPath : Str) : Str :=
  if guestPath = descriptor.path then descriptor.hostPath
  else
    let rest :=
      if descriptor.path = ['/'] then guestPath.drop 1
      else if descriptor.path = ['.'] then guestPath
      else guestPath.drop (descriptor.path.length + 1)
    if descriptor.hostPath = ['/'] then '/' :: rest
    else descriptor.hostPath ++ '/' :: rest

/-! ### Links -/

def MAX_SYMLINK_FOLLOWS : ℕ := 32

/-- `lookupFlags & LOOKUP_SYMLINK_FOLLOW`. -/
def followsLinks (lookupFlags : ℕ) : Bool := lookupFlags &&& 1 ≠ 0

/-- A guest path and the host path it maps to. -/
structure Resolved where
  guest : Str
  host : Str

variable {η : Type} (host : Host η)

def requireDirectory (mustBeDirectory : Bool) (path : Str) : Syscall η Unit := do
  if mustBeDirectory then
    match ← attempt (ask host (.statSync path)) with
    | some stats => require stats.isDirectory .ENOTDIR
    | none => pure ()

def linkTarget (path : Str) : Syscall η (Option Str) := do
  let stats ← ask host (.lstatSync path)
  if !stats.isSymbolicLink || !host.hasReadlink then return none
  let target ← ask host (.readlinkSync path)
  return some target

/-- The loop of `resolve`, by the number of turns it has left. -/
def resolveLoop (descriptor : Descriptor) (mustBeDirectory : Bool) (lookupFlags : ℕ) :
    ℕ → Str → Syscall η Resolved
  | 0, _ => answer .ELOOP
  | left + 1, input => do
      let normalized := normalizePath (descriptor.path ++ '/' :: input)
      require (isSandboxed normalized descriptor.path) .ENOTCAPABLE
      let path := hostPathOf descriptor normalized
      requireDirectory host mustBeDirectory path
      if followsLinks lookupFlags then
        match ← attempt (linkTarget host path) with
        | some (some target) =>
            -- the turn that would be the thirty-second follows no link
            require (left ≠ 0) .ELOOP
            require (!(['/'].isPrefixOf target)) .ENOTCAPABLE
            resolveLoop descriptor mustBeDirectory lookupFlags left
              (dirnameOf normalized ++ '/' :: target)
        | _ => return ⟨normalized, path⟩
      else return ⟨normalized, path⟩

/-- `descriptor.kind === 'stream'`. -/
def Descriptor.isStream (descriptor : Descriptor) : Bool :=
  match descriptor.kind with
  | .stream _ => true
  | _ => false

/-- `uvwasi__resolve_path`. -/
def resolve (descriptor : Descriptor) (path : Str) (lookupFlags : ℕ) : Syscall η Resolved := do
  require (!descriptor.isStream) .ENOTDIR
  require (path ≠ []) .EINVAL
  require (!path.contains '\x00') .EINVAL
  require (!(['/'].isPrefixOf path)) .ENOTCAPABLE
  resolveLoop host descriptor (['/'].isSuffixOf path) lookupFlags MAX_SYMLINK_FOLLOWS path

end Wasi

end Tabnode
