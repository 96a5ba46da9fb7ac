import Tabnode.Data.Machine
import Tabnode.Wasi.Syscalls

/-!
# Runs of syscalls

A `Call` is a syscall with its arguments, which are any 32-bit and 64-bit values.
`perform` answers it. A reachable world is one that calls lead to from a table the `WASI`
constructor has made.
-/

namespace Tabnode

namespace Wasi

/-- A syscall and its arguments, in the order node_wasi.cc declares them. -/
inductive Call where
  | args_get (argvPtr bufPtr : UInt32)
  | args_sizes_get (argcPtr bufSizePtr : UInt32)
  | clock_res_get (clockId resolutionPtr : UInt32)
  | clock_time_get (clockId : UInt32) (precision : UInt64) (timePtr : UInt32)
  | environ_get (environPtr bufPtr : UInt32)
  | environ_sizes_get (countPtr bufSizePtr : UInt32)
  | fd_advise (fd : UInt32) (offset len : UInt64) (advice : UInt32)
  | fd_allocate (fd : UInt32) (offset len : UInt64)
  | fd_close (fd : UInt32)
  | fd_datasync (fd : UInt32)
  | fd_fdstat_get (fd bufPtr : UInt32)
  | fd_fdstat_set_flags (fd flags : UInt32)
  | fd_fdstat_set_rights (fd : UInt32) (rightsBase rightsInheriting : UInt64)
  | fd_filestat_get (fd bufPtr : UInt32)
  | fd_filestat_set_size (fd : UInt32) (size : UInt64)
  | fd_filestat_set_times (fd : UInt32) (atim mtim : UInt64) (flags : UInt32)
  | fd_pread (fd iovsPtr iovsLen : UInt32) (offset : UInt64) (nreadPtr : UInt32)
  | fd_prestat_get (fd bufPtr : UInt32)
  | fd_prestat_dir_name (fd pathPtr pathLen : UInt32)
  | fd_pwrite (fd iovsPtr iovsLen : UInt32) (offset : UInt64) (nwrittenPtr : UInt32)
  | fd_read (fd iovsPtr iovsLen nreadPtr : UInt32)
  | fd_readdir (fd bufPtr bufLen : UInt32) (cookie : UInt64) (bufusedPtr : UInt32)
  | fd_renumber (source target : UInt32)
  | fd_seek (fd : UInt32) (offset : UInt64) (whence newOffsetPtr : UInt32)
  | fd_sync (fd : UInt32)
  | fd_tell (fd offsetPtr : UInt32)
  | fd_write (fd iovsPtr iovsLen nwrittenPtr : UInt32)
  | path_create_directory (fd pathPtr pathLen : UInt32)
  | path_filestat_get (fd flags pathPtr pathLen bufPtr : UInt32)
  | path_filestat_set_times (fd flags pathPtr pathLen : UInt32) (atim mtim : UInt64)
      (fstFlags : UInt32)
  | path_link (oldFd oldFlags oldPathPtr oldPathLen newFd newPathPtr newPathLen : UInt32)
  | path_open (dirFd dirFlags pathPtr pathLen oFlags : UInt32)
      (rightsBase rightsInheriting : UInt64) (fdFlags fdPtr : UInt32)
  | path_readlink (fd pathPtr pathLen bufPtr bufLen bufusedPtr : UInt32)
  | path_remove_directory (fd pathPtr pathLen : UInt32)
  | path_rename (oldFd oldPathPtr oldPathLen newFd newPathPtr newPathLen : UInt32)
  | path_symlink (oldPathPtr oldPathLen fd newPathPtr newPathLen : UInt32)
  | path_unlink_file (fd pathPtr pathLen : UInt32)
  | poll_oneoff (inPtr outPtr nsubscriptions neventsPtr : UInt32)
  | proc_exit (code : UInt32)
  | proc_raise (signal : UInt32)
  | random_get (bufPtr bufLen : UInt32)
  | sched_yield
  | sock_accept (fd flags fdPtr : UInt32)
  | sock_recv (fd riDataPtr riDataLen riFlags roDataLenPtr roFlagsPtr : UInt32)
  | sock_send (fd siDataPtr siDataLen siFlags soDataLenPtr : UInt32)
  | sock_shutdown (fd how : UInt32)
  deriving DecidableEq

variable {η : Type} (host : Host η)

def Call.syscall : Call → Syscall η Unit
  | args_get p q => Wasi.args_get p.toNat q.toNat
  | args_sizes_get p q => Wasi.args_sizes_get p.toNat q.toNat
  | clock_res_get c p => Wasi.clock_res_get c.toNat p.toNat
  | clock_time_get c _ p => Wasi.clock_time_get host c.toNat p.toNat
  | environ_get p q => Wasi.environ_get p.toNat q.toNat
  | environ_sizes_get p q => Wasi.environ_sizes_get p.toNat q.toNat
  | fd_advise fd _ _ advice => Wasi.fd_advise fd.toNat advice.toNat
  | fd_allocate fd offset len => Wasi.fd_allocate host fd.toNat offset.toNat len.toNat
  | fd_close fd => Wasi.fd_close host fd.toNat
  | fd_datasync fd => Wasi.fd_datasync fd.toNat
  | fd_fdstat_get fd p => Wasi.fd_fdstat_get fd.toNat p.toNat
  | fd_fdstat_set_flags fd flags => Wasi.fd_fdstat_set_flags fd.toNat flags.toNat
  | fd_fdstat_set_rights fd base inheriting =>
      Wasi.fd_fdstat_set_rights fd.toNat base.toBitVec inheriting.toBitVec
  | fd_filestat_get fd p => Wasi.fd_filestat_get host fd.toNat p.toNat
  | fd_filestat_set_size fd size => Wasi.fd_filestat_set_size host fd.toNat size.toNat
  | fd_filestat_set_times fd atim mtim flags =>
      Wasi.fd_filestat_set_times host fd.toNat atim.toNat mtim.toNat flags.toNat
  | fd_pread fd p n offset q =>
      Wasi.fd_pread host fd.toNat p.toNat n.toNat offset.toNat q.toNat
  | fd_prestat_get fd p => Wasi.fd_prestat_get fd.toNat p.toNat
  | fd_prestat_dir_name fd p n => Wasi.fd_prestat_dir_name fd.toNat p.toNat n.toNat
  | fd_pwrite fd p n offset q =>
      Wasi.fd_pwrite host fd.toNat p.toNat n.toNat offset.toNat q.toNat
  | fd_read fd p n q => Wasi.fd_read host fd.toNat p.toNat n.toNat q.toNat
  | fd_readdir fd p n cookie q =>
      Wasi.fd_readdir host fd.toNat p.toNat n.toNat cookie.toNat q.toNat
  | fd_renumber source target => Wasi.fd_renumber host source.toNat target.toNat
  | fd_seek fd offset whence p =>
      Wasi.fd_seek host fd.toNat offset.toBitVec.toInt whence.toNat p.toNat
  | fd_sync fd => Wasi.fd_sync fd.toNat
  | fd_tell fd p => Wasi.fd_tell fd.toNat p.toNat
  | fd_write fd p n q => Wasi.fd_write host fd.toNat p.toNat n.toNat q.toNat
  | path_create_directory fd p n => Wasi.path_create_directory host fd.toNat p.toNat n.toNat
  | path_filestat_get fd flags p n q =>
      Wasi.path_filestat_get host fd.toNat flags.toNat p.toNat n.toNat q.toNat
  | path_filestat_set_times fd flags p n atim mtim fstFlags =>
      Wasi.path_filestat_set_times host fd.toNat flags.toNat p.toNat n.toNat atim.toNat
        mtim.toNat fstFlags.toNat
  | path_link oldFd _ p n newFd q m =>
      Wasi.path_link oldFd.toNat p.toNat n.toNat newFd.toNat q.toNat m.toNat
  | path_open dirFd dirFlags p n oFlags base inheriting fdFlags q =>
      Wasi.path_open host dirFd.toNat dirFlags.toNat p.toNat n.toNat oFlags.toNat
        base.toBitVec inheriting.toBitVec fdFlags.toNat q.toNat
  | path_readlink fd p n q m r =>
      Wasi.path_readlink host fd.toNat p.toNat n.toNat q.toNat m.toNat r.toNat
  | path_remove_directory fd p n => Wasi.path_remove_directory host fd.toNat p.toNat n.toNat
  | path_rename oldFd p n newFd q m =>
      Wasi.path_rename host oldFd.toNat p.toNat n.toNat newFd.toNat q.toNat m.toNat
  | path_symlink p n fd q m =>
      Wasi.path_symlink host p.toNat n.toNat fd.toNat q.toNat m.toNat
  | path_unlink_file fd p n => Wasi.path_unlink_file host fd.toNat p.toNat n.toNat
  | poll_oneoff p q n r => Wasi.poll_oneoff host p.toNat q.toNat n.toNat r.toNat
  | proc_exit code => Wasi.proc_exit host code.toNat
  | proc_raise signal => Wasi.proc_raise host signal.toNat
  | random_get p n => Wasi.random_get host p.toNat n.toNat
  | sched_yield => Wasi.sched_yield
  | sock_accept fd _ p => Wasi.sock_accept fd.toNat p.toNat
  | sock_recv fd p n _ q r =>
      Wasi.sock_recv fd.toNat p.toNat n.toNat q.toNat r.toNat
  | sock_send fd p n _ q => Wasi.sock_send fd.toNat p.toNat n.toNat q.toNat
  | sock_shutdown fd _ => Wasi.sock_shutdown fd.toNat

/-- What the guest is answered: an errno, or an exception thrown into its frame. -/
inductive Outcome where
  | errno (errno : Errno)
  | threw (error : HostError)
  deriving DecidableEq

/-- How the method that `define` makes ends. -/
def outcomeOf : Except Stop Unit → Outcome
  | .ok () => .errno .ESUCCESS
  | .error (.answer errno) => .errno errno
  | .error (.thrown error) => if isFsError error then .errno (errnoOf error) else .threw error

def perform (w : World η) (call : Call) : Outcome × World η :=
  (outcomeOf ((call.syscall host).run w).1, ((call.syscall host).run w).2)

/-- What happens next: the guest makes a syscall, or writes or grows its memory, or the host
changes by itself. -/
inductive Action (η : Type) where
  | call (call : Call)
  | guest (memory : List UInt8)
  | outside (host : η)

def step (w : World η) : Action η → Option (World η)
  | .call call => some (perform host w call).2
  | .guest memory => some { w with memory := memory }
  | .outside host => some { w with host := host }

/-! ## The constructor -/

def wasiException {α : Type} (errno : String) : Syscall η α :=
  Effect.throw (.thrown ⟨some ("UVWASI_" ++ errno)⟩)

def errnoName (errno : Errno) : String :=
  ((ERRNO.find? fun entry => entry.2 = errno).map Prod.fst).getD "EIO"

/-- What fails in the constructor throws as a failed `uvwasi_init` does. -/
def orInitFails {α : Type} (x : Syscall η α) : Syscall η α :=
  catching x fun e => wasiException (errnoName (errnoOf e))

/-- The descriptor of one of the guest's three streams: the stream that the option names, or
an open file of the engine. -/
def stdioDescriptor (name : Str) (given : ℕ) : Syscall η Descriptor :=
  match given with
  | 0 => pure (streamDescriptor .stdin (host.isTTY .stdin))
  | 1 => pure (streamDescriptor .stdout (host.isTTY .stdout))
  | 2 => pure (streamDescriptor .stderr (host.isTTY .stderr))
  | fd => orInitFails (fileDescriptor host fd name [] O_RDWR 0)

def setSlot (fd : ℕ) (descriptor : Descriptor) : Syscall η Unit :=
  Effect.modify fun w => { w with
    table := OrderedMap.set fd { descriptor with id := w.nextId } w.table, nextId := w.nextId + 1 }

def addStdio (fd : ℕ) (name : Str) (given : ℕ) : Syscall η Unit := do
  setSlot fd (← stdioDescriptor host name given)

def addPreopens : List (Str × Str) → Syscall η Unit
  | [] => pure ()
  | (mapped, real) :: preopens => do
      let (hostPath, stats) ← orInitFails (do
        let hostPath : Str ← ask host (.realpathSync real)
        let stats : HostStats ← ask host (.statSync hostPath)
        return (hostPath, stats))
      if !stats.isDirectory then wasiException "ENOTDIR"
      else do
        let _ ← insert {
          kind := .dir
          path := normalizePath mapped
          hostPath := hostPath
          type := .DIRECTORY
          rightsBase := RIGHTS_DIRECTORY_BASE
          rightsInheriting := RIGHTS_DIRECTORY_INHERITING
          preopen := true
          fdflags := 0
          position := 0
          id := 0
          lineage := [] }
        addPreopens preopens

/-- The options of the `WASI` constructor. -/
structure Options where
  args : List Str
  env : List Str
  preopens : List (Str × Str)
  stdin : ℕ
  stdout : ℕ
  stderr : ℕ

/-- The `WASI` constructor, from a world that has a host and the guest's memory. -/
def construct (options : Options) : Syscall η Unit := do
  Effect.modify fun w => { w with
    args := options.args, env := options.env, table := [], stdinPending := [],
    stdinEnded := false }
  addStdio host 0 "<stdin>".toList options.stdin
  addStdio host 1 "<stdout>".toList options.stdout
  addStdio host 2 "<stderr>".toList options.stderr
  addPreopens host options.preopens

def emptyWorld (memory : List UInt8) (host : η) : World η where
  args := []
  env := []
  table := []
  nextId := 0
  stdinPending := []
  stdinEnded := false
  memory := memory
  host := host
  history := []

def Reachable (w : World η) : Prop :=
  ∃ (options : Options) (memory : List UInt8) (h : η) (start : World η)
    (actions : List (Action η)),
    (construct host options).run (emptyWorld memory h) = (.ok (), start) ∧
      Machine.run (step host) start actions = some w

end Wasi

end Tabnode
