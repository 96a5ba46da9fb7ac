import Mathlib.Data.Rat.Floor
import Tabnode.Data.OrderedMap
import Tabnode.Wasi.Host

/-!
# The syscalls

The forty-six syscalls of `wasi_snapshot_preview1` over the descriptor table, the guest's
memory and the host, and `perform`, which answers an errno for a filesystem error and
throws any other. The `WASI` constructor makes the table: the guest's streams or open
files at 0, 1 and 2, then the preopens.
-/

namespace Tabnode

namespace Wasi

open RIGHT OrderedMap

/-! ## Structures of the guest's memory -/

namespace SIZE

def iovec : ℕ := 8
def dirent : ℕ := 24
def fdstat : ℕ := 24
def filestat : ℕ := 64
def prestat : ℕ := 8
def event : ℕ := 32
def subscription : ℕ := 48

end SIZE

structure Filestat where
  dev : ℕ
  ino : ℕ
  filetype : FileType
  nlink : ℕ
  size : ℕ
  atim : ℤ
  mtim : ℤ
  ctim : ℤ

/-- `uvwasi__stat_to_filetype`. -/
def filetypeOf (stats : HostStats) : FileType :=
  if stats.isSymbolicLink then .SYMBOLIC_LINK
  else if stats.isFile then .REGULAR_FILE
  else if stats.isDirectory then .DIRECTORY
  else if stats.isCharacterDevice then .CHARACTER_DEVICE
  else if stats.isBlockDevice then .BLOCK_DEVICE
  else if stats.isSocket || stats.isFIFO then .SOCKET_STREAM
  else .UNKNOWN

/-- `nanosSince`: whole milliseconds, and the fraction rounded to a nanosecond. -/
def nanosSince (ms : ℚ) : ℤ :=
  ⌊ms⌋ * 1000000 + ⌊valueOf (JsNumber.round ((ms - ⌊ms⌋) * 1000000)) + 1 / 2⌋

def nanosOf (ms date : Option JsNumber) : ℤ :=
  match ms.orElse fun _ => date with
  | some (.finite value) => if value ≤ 0 then 0 else nanosSince value
  | _ => 0

/-- `uvwasi__stat_to_filestat`. -/
def filestatOf (stats : HostStats) : Filestat where
  dev := stats.dev.getD 0
  ino := stats.ino.getD 0
  filetype := filetypeOf stats
  nlink := stats.nlink.getD 1
  size := stats.size
  atim := nanosOf stats.atimeMs stats.atime
  mtim := nanosOf stats.mtimeMs stats.mtime
  ctim := nanosOf stats.ctimeMs stats.ctime

variable {η : Type}

def writeFilestat (offset : ℕ) (stat : Filestat) : Syscall η Unit := do
  setU64 offset stat.dev
  setU64 (offset + 8) stat.ino
  setU8 (offset + 16) stat.filetype.number
  setU64 (offset + 24) stat.nlink
  setU64 (offset + 32) stat.size
  setU64 (offset + 40) stat.atim
  setU64 (offset + 48) stat.mtim
  setU64 (offset + 56) stat.ctim

def iovecsFrom : ℕ → ℕ → Syscall η (List (ℕ × ℕ))
  | 0, _ => pure []
  | n + 1, iovsPtr => do
      let ptr ← u32 iovsPtr
      let len ← u32 (iovsPtr + 4)
      checkFits ptr len
      let rest ← iovecsFrom n (iovsPtr + SIZE.iovec)
      return (ptr, len) :: rest

def iovecsOf (iovsPtr iovsLen : ℕ) : Syscall η (List (ℕ × ℕ)) := do
  checkFits iovsPtr (iovsLen * SIZE.iovec)
  iovecsFrom iovsLen iovsPtr

/-! ## The descriptor table -/

def hasFlag (mask flag : ℕ) : Bool := mask &&& flag ≠ 0

namespace FDFLAG

def APPEND : ℕ := 1
def DSYNC : ℕ := 2
def RSYNC : ℕ := 8
def SYNC : ℕ := 16

end FDFLAG

namespace OFLAG

def CREAT : ℕ := 1
def DIRECTORY : ℕ := 2
def EXCL : ℕ := 4
def TRUNC : ℕ := 8

end OFLAG

/-- The lowest free slot from one on, looked for in as many slots as the table has and one. -/
def lowestFree (table : List (ℕ × Descriptor)) : ℕ → ℕ → ℕ
  | 0, fd => fd
  | n + 1, fd => if (find fd table).isSome then lowestFree table n (fd + 1) else fd

/-- `uvwasi_fd_table_insert`: the lowest free slot. The descriptor gets an identity of its
own. -/
def insert (descriptor : Descriptor) : Syscall η ℕ := do
  let w ← Effect.get
  let fd := lowestFree w.table (w.table.length + 1) 0
  Effect.modify fun w => { w with
    table := OrderedMap.set fd { descriptor with id := w.nextId } w.table, nextId := w.nextId + 1 }
  return fd

/-- `uvwasi_fd_table_get`: the descriptor, or `EBADF`, or `ENOTCAPABLE` when it lacks a right
asked for. -/
def World.lookup (w : World η) (fd : ℕ) (rightsBase rightsInheriting : Rights := 0) :
    Except Errno Descriptor :=
  match find fd w.table with
  | none => .error .EBADF
  | some descriptor =>
      if Within rightsBase descriptor.rightsBase ∧
          Within rightsInheriting descriptor.rightsInheriting then .ok descriptor
      else .error .ENOTCAPABLE

/-- `typeof descriptor === 'number'` ends a syscall with the errno. -/
def lookup (fd : ℕ) (rightsBase rightsInheriting : Rights := 0) : Syscall η Descriptor := do
  let w ← Effect.get
  match w.lookup fd rightsBase rightsInheriting with
  | .ok descriptor => return descriptor
  | .error errno => answer errno

def update (fd : ℕ) (descriptor : Descriptor) : Syscall η Unit :=
  Effect.modify fun w => { w with table := OrderedMap.set fd descriptor w.table }

/-- A stream of the guest's process: a TTY, or a pipe, which is typed as a socket. -/
def streamDescriptor (stream : Stream) (isTTY : Bool) : Descriptor where
  kind := .stream stream
  path := match stream with
    | .stdin => "<stdin>".toList
    | .stdout => "<stdout>".toList
    | .stderr => "<stderr>".toList
  hostPath := []
  type := if isTTY then .CHARACTER_DEVICE else .SOCKET_STREAM
  rightsBase := if isTTY then RIGHTS_TTY_BASE else RIGHTS_SOCKET_BASE
  rightsInheriting := if isTTY then RIGHTS_TTY_INHERITING else RIGHTS_SOCKET_INHERITING
  preopen := false
  fdflags := 0
  position := 0
  id := 0
  lineage := []

variable (host : Host η)

def fileDescriptor (fd : ℕ) (guestPath hostPath : Str) (accessFlags fdflags : ℕ) :
    Syscall η Descriptor := do
  let stats ← ask host (.fstatSync fd)
  let type := filetypeOf stats
  return {
    kind := .file fd
    path := guestPath
    hostPath := hostPath
    type := type
    rightsBase := (rightsFor type accessFlags).1
    rightsInheriting := (rightsFor type accessFlags).2
    preopen := false
    fdflags := fdflags
    position := if hasFlag fdflags FDFLAG.APPEND then stats.size else 0
    id := 0
    lineage := [] }

def filestatOfDescriptor (descriptor : Descriptor) : Syscall η Filestat :=
  match descriptor.kind with
  | .file fd => filestatOf <$> ask host (.fstatSync fd)
  | .dir => filestatOf <$> ask host (.statSync descriptor.hostPath)
  | .stream _ => pure ⟨0, 0, descriptor.type, 1, 0, 0, 0, 0⟩

def sizeOf (descriptor : Descriptor) : Syscall η ℕ :=
  match descriptor.kind with
  | .file fd => HostStats.size <$> ask host (.fstatSync fd)
  | _ => pure 0

/-! ## Streams and times -/

def onlyIf (condition : Bool) (x : Syscall η Unit) : Syscall η Unit :=
  if condition then x else pure ()

def pullStdin : Syscall η Unit := do
  match ← ask host .readStream with
  | none => Effect.modify fun w => { w with stdinEnded := true }
  | some bytes => Effect.modify fun w => { w with stdinPending := bytes }

def World.stdinAwaits (w : World η) : Bool := w.stdinPending.isEmpty && !w.stdinEnded

/-- What the guest's stdin has to give, at most so many bytes: whatever its stream yields
now, then the end. -/
def readStdin (length : ℕ) : Syscall η (List UInt8) := do
  let w ← Effect.get
  onlyIf w.stdinAwaits (pullStdin host)
  let w ← Effect.get
  Effect.modify fun w => { w with stdinPending := w.stdinPending.drop length }
  return w.stdinPending.take length

def writeStream (stream : Stream) (bytes : List UInt8) : Syscall η Unit :=
  if bytes = [] then pure ()
  else ask host (.writeStream (if stream = .stderr then .stderr else .stdout) bytes)

def realtimeNanos : Syscall η ℤ := nanosSince <$> ask host .realtime

def monotonicNanos : Syscall η ℤ := nanosSince <$> ask host .monotonic

def sleepNanos (nanos : ℤ) : Syscall η Unit :=
  if nanos ≤ 0 then pure () else ask host (.sleep nanos)

namespace FSTFLAG

def ATIM : ℕ := 1
def ATIM_NOW : ℕ := 2
def MTIM : ℕ := 4
def MTIM_NOW : ℕ := 8

end FSTFLAG

/-- `Number(nanos) / Number(NANOS_PER_SEC)`. -/
def seconds (nanos : ℤ) : JsNumber := JsNumber.round ((nearest nanos : ℚ) / 1000000000)

def currentFilestat (descriptor : Option Descriptor) (hostPath : Str) : Syscall η Filestat :=
  match descriptor with
  | some descriptor => filestatOfDescriptor host descriptor
  | none => filestatOf <$> ask host (.lstatSync hostPath)

def keptTimes (descriptor : Option Descriptor) (hostPath : Str) (flags : ℕ) :
    Syscall η Filestat :=
  if !hasFlag flags (FSTFLAG.ATIM ||| FSTFLAG.ATIM_NOW) ||
      !hasFlag flags (FSTFLAG.MTIM ||| FSTFLAG.MTIM_NOW) then
    currentFilestat host descriptor hostPath
  else pure ⟨0, 0, .UNKNOWN, 0, 0, 0, 0, 0⟩

/-- `uvwasi__get_filestat_set_times`: the seconds to set, from the flags and the times
given. -/
def timesToSet (descriptor : Option Descriptor) (hostPath : Str) (atim mtim : ℤ) (flags : ℕ) :
    Syscall η (JsNumber × JsNumber) := do
  let now ← realtimeNanos host
  let current ← keptTimes host descriptor hostPath flags
  let atime := if hasFlag flags FSTFLAG.ATIM_NOW then now
    else if hasFlag flags FSTFLAG.ATIM then atim else current.atim
  let mtime := if hasFlag flags FSTFLAG.MTIM_NOW then now
    else if hasFlag flags FSTFLAG.MTIM then mtim else current.mtim
  return (seconds atime, seconds mtime)

def setTimes (hostPath : Str) (times : JsNumber × JsNumber) : Syscall η Unit := do
  require host.hasUtimes .ENOSYS
  ask host (.utimesSync hostPath times.1 times.2)

/-! ## Arguments, environment, clocks -/

def putStrings : List (List UInt8) → ℕ → ℕ → Syscall η Unit
  | [], _, _ => pure ()
  | chunk :: rest, ptr, position => do
      setU32 ptr position
      store position chunk
      putStrings rest (ptr + 4) (position + chunk.length)

def terminated (strings : List Str) : List (List UInt8) :=
  strings.map fun s => encodeText s ++ [0]

def stringsSize (strings : List Str) : ℕ := ((terminated strings).map List.length).sum

def stringsGet (strings : List Str) (ptr bufPtr : ℕ) : Syscall η Unit := do
  checkFits bufPtr (stringsSize strings)
  checkFits ptr (strings.length * 4)
  putStrings (terminated strings) ptr bufPtr

def stringsSizesGet (strings : List Str) (countPtr bufSizePtr : ℕ) : Syscall η Unit := do
  checkFits countPtr 4
  checkFits bufSizePtr 4
  setU32 countPtr strings.length
  setU32 bufSizePtr (stringsSize strings)

def args_get (argvPtr bufPtr : ℕ) : Syscall η Unit := do
  stringsGet (← Effect.get).args argvPtr bufPtr

def args_sizes_get (argcPtr bufSizePtr : ℕ) : Syscall η Unit := do
  stringsSizesGet (← Effect.get).args argcPtr bufSizePtr

def environ_get (environPtr bufPtr : ℕ) : Syscall η Unit := do
  stringsGet (← Effect.get).env environPtr bufPtr

def environ_sizes_get (countPtr bufSizePtr : ℕ) : Syscall η Unit := do
  stringsSizesGet (← Effect.get).env countPtr bufSizePtr

def clock_res_get (clockId resolutionPtr : ℕ) : Syscall η Unit := do
  checkFits resolutionPtr 8
  require (clockId < 4) .EINVAL
  setU64 resolutionPtr 1

def clock_time_get (clockId timePtr : ℕ) : Syscall η Unit := do
  checkFits timePtr 8
  match clockId with
  | 0 => setU64 timePtr (← realtimeNanos host)
  -- a tab has no CPU clock: the CPU clocks answer the monotonic one
  | 1 | 2 | 3 => setU64 timePtr (← monotonicNanos host)
  | _ => answer .EINVAL

/-! ## Descriptors -/

def fd_advise (fd advice : ℕ) : Syscall η Unit := do
  let _ ← lookup fd FD_ADVISE
  require (advice ≤ 5) .EINVAL

def fd_allocate (fd offset len : ℕ) : Syscall η Unit := do
  let descriptor ← lookup fd FD_ALLOCATE
  match descriptor.kind with
  | .file hostFd => do
      let stop := nearest (offset + len)
      let size ← sizeOf host descriptor
      onlyIf (stop > size) (ask host (.ftruncateSync hostFd stop))
  | _ => answer .EBADF

/-- `fs.closeSync(descriptor.fd)`, for a file. -/
def closeHost (descriptor : Descriptor) : Syscall η Unit :=
  match descriptor.kind with
  | .file hostFd => ask host (.closeSync hostFd)
  | _ => pure ()

def fd_close (fd : ℕ) : Syscall η Unit := do
  let descriptor ← lookup fd
  closeHost host descriptor
  Effect.modify fun w => { w with table := erase fd w.table }

def fd_datasync (fd : ℕ) : Syscall η Unit := do
  let _ ← lookup fd FD_DATASYNC

def fd_fdstat_get (fd bufPtr : ℕ) : Syscall η Unit := do
  checkFits bufPtr SIZE.fdstat
  let descriptor ← lookup fd
  setU8 bufPtr descriptor.type.number
  setU16 (bufPtr + 2) descriptor.fdflags
  setU64 (bufPtr + 8) descriptor.rightsBase.toNat
  setU64 (bufPtr + 16) descriptor.rightsInheriting.toNat

def fd_fdstat_set_flags (fd flags : ℕ) : Syscall η Unit := do
  let descriptor ← lookup fd FD_FDSTAT_SET_FLAGS
  update fd { descriptor with fdflags := flags }

def fd_fdstat_set_rights (fd : ℕ) (rightsBase rightsInheriting : Rights) : Syscall η Unit := do
  let descriptor ← lookup fd
  require (Within rightsBase descriptor.rightsBase &&
    Within rightsInheriting descriptor.rightsInheriting) .ENOTCAPABLE
  update fd { descriptor with rightsBase := rightsBase, rightsInheriting := rightsInheriting }

def fd_filestat_get (fd bufPtr : ℕ) : Syscall η Unit := do
  checkFits bufPtr SIZE.filestat
  let descriptor ← lookup fd FD_FILESTAT_GET
  writeFilestat bufPtr (← filestatOfDescriptor host descriptor)

def fd_filestat_set_size (fd size : ℕ) : Syscall η Unit := do
  let descriptor ← lookup fd FD_FILESTAT_SET_SIZE
  match descriptor.kind with
  | .file hostFd => ask host (.ftruncateSync hostFd (nearest size))
  | _ => answer .EBADF

def fd_filestat_set_times (fd atim mtim flags : ℕ) : Syscall η Unit := do
  let descriptor ← lookup fd FD_FILESTAT_SET_TIMES
  match descriptor.kind with
  | .stream _ => answer .EBADF
  | _ => do
      let times ← timesToSet host (some descriptor) descriptor.hostPath atim mtim flags
      setTimes host descriptor.hostPath times

/-- Bytes of a host file into the buffers, from a position on, until one is not filled. -/
def preadLoop (hostFd : ℕ) : List (ℕ × ℕ) → ℤ → ℤ → Syscall η ℤ
  | [], _, total => pure total
  | (ptr, len) :: iovs, position, total => do
      let bytes ← ask host (.readSync hostFd len position)
      store ptr bytes
      let total := nearest (total + bytes.length)
      if bytes.length < len then return total
      else preadLoop hostFd iovs (nearest (position + bytes.length)) total

def fd_pread (fd iovsPtr iovsLen offset nreadPtr : ℕ) : Syscall η Unit := do
  checkFits nreadPtr 4
  let iovs ← iovecsOf iovsPtr iovsLen
  let descriptor ← lookup fd (FD_READ ||| FD_SEEK)
  match descriptor.kind with
  | .file hostFd => do
      let total ← preadLoop host hostFd iovs (nearest offset) 0
      setU32 nreadPtr total
  | _ => answer .EBADF

def fd_prestat_get (fd bufPtr : ℕ) : Syscall η Unit := do
  checkFits bufPtr SIZE.prestat
  let descriptor ← lookup fd
  require descriptor.preopen .EINVAL
  setU8 bufPtr 0
  setU32 (bufPtr + 4) (encodeText descriptor.path).length

def fd_prestat_dir_name (fd pathPtr pathLen : ℕ) : Syscall η Unit := do
  checkFits pathPtr pathLen
  let descriptor ← lookup fd
  require descriptor.preopen .EBADF
  let name := encodeText descriptor.path
  require (name.length ≤ pathLen) .ENOBUFS
  store pathPtr name

def pwriteLoop (hostFd : ℕ) : List (ℕ × ℕ) → ℤ → ℤ → Syscall η ℤ
  | [], _, total => pure total
  | (ptr, len) :: iovs, position, total => do
      let count : ℕ ← ask host (.writeSync hostFd (← bytesAt ptr len) position)
      pwriteLoop hostFd iovs (nearest (position + count)) (nearest (total + count))

def fd_pwrite (fd iovsPtr iovsLen offset nwrittenPtr : ℕ) : Syscall η Unit := do
  checkFits nwrittenPtr 4
  let iovs ← iovecsOf iovsPtr iovsLen
  let descriptor ← lookup fd (FD_WRITE ||| FD_SEEK)
  match descriptor.kind with
  | .file hostFd => do
      let total ← pwriteLoop host hostFd iovs (nearest offset) 0
      setU32 nwrittenPtr total
  | _ => answer .EBADF

def readStreamLoop : List (ℕ × ℕ) → ℤ → Syscall η ℤ
  | [], total => pure total
  | (ptr, len) :: iovs, total => do
      let bytes ← readStdin host len
      store ptr bytes
      let total := nearest (total + bytes.length)
      if bytes.length < len then return total
      else readStreamLoop iovs total

def readLoop (fd hostFd : ℕ) : List (ℕ × ℕ) → Descriptor → ℤ → Syscall η ℤ
  | [], _, total => pure total
  | (ptr, len) :: iovs, descriptor, total => do
      let bytes ← ask host (.readSync hostFd len descriptor.position)
      store ptr bytes
      let descriptor := { descriptor with position := nearest (descriptor.position + bytes.length) }
      update fd descriptor
      let total := nearest (total + bytes.length)
      if bytes.length < len then return total
      else readLoop fd hostFd iovs descriptor total

def fd_read (fd iovsPtr iovsLen nreadPtr : ℕ) : Syscall η Unit := do
  checkFits nreadPtr 4
  let iovs ← iovecsOf iovsPtr iovsLen
  let descriptor ← lookup fd FD_READ
  match descriptor.kind with
  | .stream stream => do
      require (stream = .stdin) .EBADF
      setU32 nreadPtr (← readStreamLoop host iovs 0)
  | .file hostFd => do
      setU32 nreadPtr (← readLoop host fd hostFd iovs descriptor 0)
  | .dir => answer .EISDIR

def direntType (entry : HostDirent) : FileType :=
  if entry.isSymbolicLink then .SYMBOLIC_LINK
  else if entry.isDirectory then .DIRECTORY
  else if entry.isFile then .REGULAR_FILE
  else .UNKNOWN

def direntIno (hostPath name : Str) : Syscall η ℕ := do
  let path := (if hostPath = ['/'] then [] else hostPath) ++ '/' :: name
  match ← attempt (ask host (.lstatSync path)) with
  | some stats => return stats.ino.getD 0
  | none => return 0

def readdirLoop (hostPath : Str) (bufPtr bufLen : ℕ) :
    ℕ → List HostDirent → ℕ → Syscall η ℕ
  | _, [], used => pure used
  | index, entry :: entries, used => do
      let name := encodeText entry.name
      if bufLen < used + SIZE.dirent then return bufLen
      else do
        let ino ← direntIno host hostPath entry.name
        setU64 (bufPtr + used) (index + 1 : ℕ)
        setU64 (bufPtr + used + 8) ino
        setU32 (bufPtr + used + 16) name.length
        setU8 (bufPtr + used + 20) (direntType entry).number
        let copied := min (bufLen - (used + SIZE.dirent)) name.length
        store (bufPtr + (used + SIZE.dirent)) (name.take copied)
        let used := used + SIZE.dirent + copied
        if bufLen - used = 0 then return used
        else readdirLoop hostPath bufPtr bufLen (index + 1) entries used

def fd_readdir (fd bufPtr bufLen cookie bufusedPtr : ℕ) : Syscall η Unit := do
  checkFits bufPtr bufLen
  checkFits bufusedPtr 4
  let descriptor ← lookup fd FD_READDIR
  require (descriptor.kind = .dir) .ENOTDIR
  let entries ← ask host (.readdirSync descriptor.hostPath)
  let index := (nearest cookie).toNat
  let used ← readdirLoop host descriptor.hostPath bufPtr bufLen index (entries.drop index) 0
  setU32 bufusedPtr used

def fd_renumber (source target : ℕ) : Syscall η Unit := do
  if source = target then pure ()
  else do
    let w ← Effect.get
    match find source w.table, find target w.table with
    | some moved, some closed => do
        closeHost host closed
        Effect.modify fun w => { w with
          table := erase source (OrderedMap.set target moved w.table) }
    | _, _ => answer .EBADF

def seekBase (descriptor : Descriptor) : ℕ → Syscall η ℤ
  | 0 => pure 0
  | 1 => pure descriptor.position
  | 2 => Nat.cast <$> sizeOf host descriptor
  | _ => answer .EINVAL

def fd_seek (fd : ℕ) (offset : ℤ) (whence newOffsetPtr : ℕ) : Syscall η Unit := do
  checkFits newOffsetPtr 8
  let descriptor ← lookup fd FD_SEEK
  match descriptor.kind with
  | .file _ => do
      let base ← seekBase host descriptor whence
      let next := nearest (base + nearest offset)
      require (0 ≤ next) .EINVAL
      update fd { descriptor with position := next }
      setU64 newOffsetPtr next
  | _ => answer .ESPIPE

def fd_sync (fd : ℕ) : Syscall η Unit := do
  let _ ← lookup fd FD_SYNC

def fd_tell (fd offsetPtr : ℕ) : Syscall η Unit := do
  checkFits offsetPtr 8
  let descriptor ← lookup fd FD_TELL
  match descriptor.kind with
  | .file _ => setU64 offsetPtr descriptor.position
  | _ => answer .ESPIPE

def writeStreamLoop (stream : Stream) : List (ℕ × ℕ) → ℤ → Syscall η ℤ
  | [], total => pure total
  | (ptr, len) :: iovs, total => do
      writeStream host stream (← bytesAt ptr len)
      writeStreamLoop stream iovs (nearest (total + len))

/-- Where a write lands: the file's end where the descriptor appends, else its cursor. -/
def writePosition (descriptor : Descriptor) : Syscall η ℤ :=
  if hasFlag descriptor.fdflags FDFLAG.APPEND then Nat.cast <$> sizeOf host descriptor
  else pure descriptor.position

/-- The buffers' bytes into a host file, at its end where the descriptor appends, else at its
cursor, which goes along. -/
def writeLoop (fd hostFd : ℕ) : List (ℕ × ℕ) → Descriptor → ℤ → Syscall η ℤ
  | [], _, total => pure total
  | (ptr, len) :: iovs, descriptor, total => do
      let position ← writePosition host descriptor
      let count : ℕ ← ask host (.writeSync hostFd (← bytesAt ptr len) position)
      let descriptor := { descriptor with position := nearest (position + count) }
      update fd descriptor
      writeLoop fd hostFd iovs descriptor (nearest (total + count))

def fd_write (fd iovsPtr iovsLen nwrittenPtr : ℕ) : Syscall η Unit := do
  checkFits nwrittenPtr 4
  let iovs ← iovecsOf iovsPtr iovsLen
  let descriptor ← lookup fd FD_WRITE
  match descriptor.kind with
  | .stream stream => do
      require (stream ≠ .stdin) .EBADF
      setU32 nwrittenPtr (← writeStreamLoop host stream iovs 0)
  | .file hostFd => do
      setU32 nwrittenPtr (← writeLoop host fd hostFd iovs descriptor 0)
  | .dir => answer .EISDIR

/-! ## Paths -/

def path_create_directory (fd pathPtr pathLen : ℕ) : Syscall η Unit := do
  checkFits pathPtr pathLen
  let descriptor ← lookup fd PATH_CREATE_DIRECTORY
  let resolved ← resolve host descriptor (← text pathPtr pathLen) 0
  require (!(← ask host (.existsSync resolved.host))) .EEXIST
  let parent := dirnameOf resolved.host
  require (← ask host (.existsSync parent)) .ENOENT
  let stats ← ask host (.statSync parent)
  require stats.isDirectory .ENOTDIR
  ask host (.mkdirSync resolved.host)

def path_filestat_get (fd flags pathPtr pathLen bufPtr : ℕ) : Syscall η Unit := do
  checkFits pathPtr pathLen
  checkFits bufPtr SIZE.filestat
  let descriptor ← lookup fd PATH_FILESTAT_GET
  let resolved ← resolve host descriptor (← text pathPtr pathLen) flags
  let stats ← ask host (.lstatSync resolved.host)
  writeFilestat bufPtr (filestatOf stats)

def path_filestat_set_times (fd flags pathPtr pathLen atim mtim fstFlags : ℕ) :
    Syscall η Unit := do
  checkFits pathPtr pathLen
  let descriptor ← lookup fd PATH_FILESTAT_SET_TIMES
  let resolved ← resolve host descriptor (← text pathPtr pathLen) flags
  let times ← timesToSet host none resolved.host atim mtim fstFlags
  setTimes host resolved.host times

def path_link (oldFd oldPathPtr oldPathLen newFd newPathPtr newPathLen : ℕ) :
    Syscall η Unit := do
  checkFits oldPathPtr oldPathLen
  checkFits newPathPtr newPathLen
  let _ ← lookup oldFd PATH_LINK_SOURCE
  let _ ← lookup newFd PATH_LINK_TARGET
  -- the engine's tree keeps no hard links
  answer .ENOSYS

/-- What is done with a file of the engine just opened; where that throws, the file is closed
again. -/
def closingOnThrow {α : Type} (hostFd : ℕ) (x : Syscall η α) : Syscall η α :=
  catching x fun e => do
    ask host (.closeSync hostFd)
    Effect.throw (.thrown e)

/-- What `path_open` makes of the flags and rights asked for. -/
structure OpenRequest where
  flags : ℕ
  write : Bool
  neededBase : Rights
  neededInheriting : Rights

def openRequest (oFlags : ℕ) (wanted rightsInheriting : Rights) (fdFlags : ℕ) : OpenRequest :=
  let read := (wanted &&& (FD_READ ||| FD_READDIR)) ≠ 0
  let write := (wanted &&& (FD_DATASYNC ||| FD_WRITE ||| FD_ALLOCATE ||| FD_FILESTAT_SET_SIZE)) ≠ 0
  let access := if write then (if read then O_RDWR else O_WRONLY) else O_RDONLY
  let flags := access
    ||| (if hasFlag oFlags OFLAG.CREAT then O_CREAT else 0)
    ||| (if hasFlag oFlags OFLAG.EXCL then O_EXCL else 0)
    ||| (if hasFlag oFlags OFLAG.TRUNC then O_TRUNC else 0)
    ||| (if hasFlag fdFlags FDFLAG.APPEND then O_APPEND else 0)
  { flags := flags
    write := write
    neededBase := PATH_OPEN
      ||| (if hasFlag oFlags OFLAG.CREAT then PATH_CREATE_FILE else 0)
      ||| (if hasFlag oFlags OFLAG.TRUNC then PATH_FILESTAT_SET_SIZE else 0)
    neededInheriting := (wanted ||| rightsInheriting)
      ||| (if hasFlag fdFlags FDFLAG.DSYNC then FD_DATASYNC else 0)
      ||| (if hasFlag fdFlags (FDFLAG.RSYNC ||| FDFLAG.SYNC) then FD_SYNC else 0)
      ||| (if write && !hasFlag flags (O_APPEND ||| O_TRUNC) then FD_SEEK else 0) }

def openDirectory (parent : Descriptor) (resolved : Resolved) (request : OpenRequest)
    (wanted rightsInheriting : Rights) (fdFlags fdPtr : ℕ) : Syscall η Unit := do
  require (!(request.write || hasFlag request.flags O_TRUNC)) .EISDIR
  require (!hasFlag request.flags O_EXCL) .EEXIST
  let most := rightsFor .DIRECTORY request.flags
  let fd ← insert {
    kind := .dir
    path := resolved.guest
    hostPath := resolved.host
    type := .DIRECTORY
    rightsBase := wanted &&& most.1
    rightsInheriting := rightsInheriting &&& most.2
    preopen := false
    fdflags := fdFlags
    position := 0
    id := 0
    lineage := parent.id :: parent.lineage }
  setU32 fdPtr fd

def openFile (parent : Descriptor) (resolved : Resolved) (request : OpenRequest)
    (wanted rightsInheriting : Rights) (fdFlags fdPtr : ℕ) : Syscall η Unit := do
  let hostFd ← ask host (.openSync resolved.host request.flags 0o666)
  let opened ← closingOnThrow host hostFd
    (fileDescriptor host hostFd resolved.guest resolved.host request.flags fdFlags)
  let fd ← insert { opened with
    rightsBase := wanted &&& opened.rightsBase
    rightsInheriting := rightsInheriting &&& opened.rightsInheriting
    lineage := parent.id :: parent.lineage }
  setU32 fdPtr fd

/-- `exists && fs.statSync(path).isDirectory()`. -/
def isDirectoryAt (isThere : Bool) (path : Str) : Syscall η Bool :=
  if isThere then HostStats.isDirectory <$> ask host (.statSync path) else pure false

def path_open (dirFd dirFlags pathPtr pathLen oFlags : ℕ) (wanted rightsInheriting : Rights)
    (fdFlags fdPtr : ℕ) : Syscall η Unit := do
  checkFits pathPtr pathLen
  checkFits fdPtr 4
  let request := openRequest oFlags wanted rightsInheriting fdFlags
  let parent ← lookup dirFd request.neededBase request.neededInheriting
  let resolved ← resolve host parent (← text pathPtr pathLen) dirFlags
  let isThere : Bool ← ask host (.existsSync resolved.host)
  let isDirectory ← isDirectoryAt host isThere resolved.host
  if isDirectory then
    openDirectory parent resolved request wanted rightsInheriting fdFlags fdPtr
  else do
    require (!hasFlag oFlags OFLAG.DIRECTORY) (if isThere then .ENOTDIR else .ENOENT)
    openFile host parent resolved request wanted rightsInheriting fdFlags fdPtr

def path_readlink (fd pathPtr pathLen bufPtr bufLen bufusedPtr : ℕ) : Syscall η Unit := do
  checkFits pathPtr pathLen
  checkFits bufPtr bufLen
  checkFits bufusedPtr 4
  let descriptor ← lookup fd PATH_READLINK
  let resolved ← resolve host descriptor (← text pathPtr pathLen) 0
  require host.hasReadlink .ENOSYS
  let target := encodeText (← ask host (.readlinkSync resolved.host))
  require (target.length < bufLen) .ENOBUFS
  store bufPtr target
  setU32 bufusedPtr target.length

def path_remove_directory (fd pathPtr pathLen : ℕ) : Syscall η Unit := do
  checkFits pathPtr pathLen
  let descriptor ← lookup fd PATH_REMOVE_DIRECTORY
  let resolved ← resolve host descriptor (← text pathPtr pathLen) 0
  require (← ask host (.existsSync resolved.host)) .ENOENT
  let stats ← ask host (.statSync resolved.host)
  require stats.isDirectory .ENOTDIR
  let entries ← ask host (.readdirSync resolved.host)
  require entries.isEmpty .ENOTEMPTY
  ask host (.rmdirSync resolved.host)

def path_rename (oldFd oldPathPtr oldPathLen newFd newPathPtr newPathLen : ℕ) :
    Syscall η Unit := do
  checkFits oldPathPtr oldPathLen
  checkFits newPathPtr newPathLen
  let source ← lookup oldFd PATH_RENAME_SOURCE
  let target ← lookup newFd PATH_RENAME_TARGET
  let old ← resolve host source (← text oldPathPtr oldPathLen) 0
  let new ← resolve host target (← text newPathPtr newPathLen) 0
  ask host (.renameSync old.host new.host)

def path_symlink (oldPathPtr oldPathLen fd newPathPtr newPathLen : ℕ) : Syscall η Unit := do
  checkFits oldPathPtr oldPathLen
  checkFits newPathPtr newPathLen
  let descriptor ← lookup fd PATH_SYMLINK
  let resolved ← resolve host descriptor (← text newPathPtr newPathLen) 0
  require host.hasSymlink .ENOSYS
  ask host (.symlinkSync (← text oldPathPtr oldPathLen) resolved.host)

def path_unlink_file (fd pathPtr pathLen : ℕ) : Syscall η Unit := do
  checkFits pathPtr pathLen
  let descriptor ← lookup fd PATH_UNLINK_FILE
  let resolved ← resolve host descriptor (← text pathPtr pathLen) 0
  require (← ask host (.existsSync resolved.host)) .ENOENT
  let stats ← ask host (.lstatSync resolved.host)
  require (!stats.isDirectory) .EISDIR
  ask host (.unlinkSync resolved.host)

/-! ## Polling, the process, random bytes, sockets -/

structure ReadyEvent where
  userdata : ℕ
  error : ℕ
  type : ℕ
  hangup : Bool

/-- What the subscriptions come to: the earliest clock, with its user data, and the events
that are ready. -/
structure Polled where
  timeout : Option ℤ := none
  timerUserdata : ℕ := 0
  ready : List ReadyEvent := []

def relativeTimeout (clockTimeout flags : ℕ) : Syscall η ℤ :=
  if flags = 1 then (fun now => clockTimeout - now) <$> realtimeNanos host
  else pure clockTimeout

def pollClock (position userdata : ℕ) (polled : Polled) : Syscall η Polled := do
  let clockTimeout ← u64 (position + 24)
  let flags ← u16 (position + 40)
  let relative ← relativeTimeout host clockTimeout flags
  let earliest := match polled.timeout with
    | none => true
    | some timeout => decide (relative < timeout)
  return if earliest then { polled with timeout := some relative, timerUserdata := userdata }
    else polled

def pollDescriptor (position userdata type : ℕ) (polled : Polled) : Syscall η Polled := do
  let fd ← u32 (position + 16)
  let w ← Effect.get
  let put (error : ℕ) (hangup : Bool) : Polled :=
    { polled with ready := polled.ready ++ [⟨userdata, error, type, hangup⟩] }
  match w.lookup fd POLL_FD_READWRITE with
  | .error errno => return put errno.number false
  | .ok descriptor =>
      match descriptor.kind with
      | .stream .stdin =>
          if type = 1 then do
            onlyIf w.stdinAwaits (discard (readStdin host 0))
            let w ← Effect.get
            return put 0 w.stdinPending.isEmpty
          else return polled
      | .stream _ => return if type = 2 then put 0 false else polled
      | _ => return put 0 false

def pollOne (type position userdata : ℕ) (polled : Polled) : Syscall η Polled :=
  if type = 0 then pollClock host position userdata polled
  else if type = 1 ∨ type = 2 then pollDescriptor host position userdata type polled
  else answer .EINVAL

def pollLoop : ℕ → ℕ → Polled → Syscall η Polled
  | 0, _, polled => pure polled
  | n + 1, position, polled => do
      let userdata ← u64 position
      let type ← u8 (position + 8)
      let polled ← pollOne host type position userdata polled
      pollLoop n (position + SIZE.subscription) polled

def putEvents : List ReadyEvent → ℕ → Syscall η Unit
  | [], _ => pure ()
  | event :: rest, position => do
      setU64 position event.userdata
      setU16 (position + 8) event.error
      setU8 (position + 10) event.type
      setU64 (position + 16) 0
      setU16 (position + 24) (if event.hangup then 1 else 0)
      putEvents rest (position + SIZE.event)

def sleepUntil : Option ℤ → Syscall η Unit
  | some timeout => sleepNanos host timeout
  | none => pure ()

def poll_oneoff (inPtr outPtr nsubscriptions neventsPtr : ℕ) : Syscall η Unit := do
  checkFits inPtr (nsubscriptions * SIZE.subscription)
  checkFits outPtr (nsubscriptions * SIZE.event)
  checkFits neventsPtr 4
  require (nsubscriptions ≠ 0) .EINVAL
  let polled ← pollLoop host nsubscriptions inPtr {}
  if polled.ready.isEmpty then do
    sleepUntil host polled.timeout
    setU64 outPtr polled.timerUserdata
    setU16 (outPtr + 8) 0
    setU8 (outPtr + 10) 0
    setU32 neventsPtr 1
  else do
    putEvents polled.ready outPtr
    setU32 neventsPtr polled.ready.length

def proc_exit (code : ℕ) : Syscall η Unit := ask host (.exit code)

/-- WASI's signals, to the names the guest's `process.kill` takes. -/
def SIGNAL_NAMES : List String :=
  ["SIGHUP", "SIGINT", "SIGQUIT", "SIGILL", "SIGTRAP", "SIGABRT", "SIGBUS", "SIGFPE", "SIGKILL",
    "SIGUSR1", "SIGSEGV", "SIGUSR2", "SIGPIPE", "SIGALRM", "SIGTERM", "SIGCHLD", "SIGCONT",
    "SIGSTOP", "SIGTSTP", "SIGTTIN", "SIGTTOU", "SIGURG", "SIGXCPU", "SIGXFSZ", "SIGVTALRM",
    "SIGPROF", "SIGWINCH", "SIGPOLL", "SIGPWR", "SIGSYS"]

def proc_raise (signal : ℕ) : Syscall η Unit :=
  match if signal = 0 then none else SIGNAL_NAMES[signal - 1]? with
  | none => answer .ENOSYS
  | some name =>
      catching (ask host (.kill name)) fun e =>
        if e.code = some "ERR_UNKNOWN_SIGNAL" then answer .ENOSYS else Effect.throw (.thrown e)

def randomLoop : ℕ → ℕ → ℕ → Syscall η Unit
  | 0, _, _ => pure ()
  | n + 1, position, left => do
      let bytes ← ask host (.random (min 65536 left))
      store position bytes
      randomLoop n (position + 65536) (left - 65536)

def random_get (bufPtr bufLen : ℕ) : Syscall η Unit := do
  checkFits bufPtr bufLen
  randomLoop host ((bufLen + 65535) / 65536) bufPtr bufLen

def sched_yield : Syscall η Unit := pure ()

def sock_accept (fd fdPtr : ℕ) : Syscall η Unit := do
  checkFits fdPtr 4
  let _ ← lookup fd SOCK_ACCEPT
  answer .ENOTSOCK

def sock_recv (fd riDataPtr riDataLen roDataLenPtr roFlagsPtr : ℕ) : Syscall η Unit := do
  checkFits roDataLenPtr 4
  checkFits roFlagsPtr 4
  let _ ← iovecsOf riDataPtr riDataLen
  let _ ← lookup fd FD_READ
  answer .ENOTSOCK

def sock_send (fd siDataPtr siDataLen soDataLenPtr : ℕ) : Syscall η Unit := do
  checkFits soDataLenPtr 4
  let _ ← iovecsOf siDataPtr siDataLen
  let _ ← lookup fd FD_WRITE
  answer .ENOTSOCK

def sock_shutdown (fd : ℕ) : Syscall η Unit := do
  let _ ← lookup fd SOCK_SHUTDOWN
  answer .ENOTSOCK

end Wasi

end Tabnode
