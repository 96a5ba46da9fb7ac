import Mathlib.Data.List.Basic

/-!
# Errnos, file types and rights

The numbers of WASI preview1: its errnos, its file types, and the thirty rights, each a
bit of a 64-bit mask. `rightsFor` is the most a descriptor of a file type may hold under
an access mode. A mask is `Within` another when it has no bit that the other lacks, which
is how the table asks for rights.
-/

namespace Tabnode

namespace Wasi

/-! ## Errnos -/

/-- An errno of WASI preview1, in the order of their numbers. -/
inductive Errno where
  | ESUCCESS | E2BIG | EACCES | EADDRINUSE | EADDRNOTAVAIL | EAFNOSUPPORT | EAGAIN | EALREADY
  | EBADF | EBADMSG | EBUSY | ECANCELED | ECHILD | ECONNABORTED | ECONNREFUSED | ECONNRESET
  | EDEADLK | EDESTADDRREQ | EDOM | EDQUOT | EEXIST | EFAULT | EFBIG | EHOSTUNREACH | EIDRM
  | EILSEQ | EINPROGRESS | EINTR | EINVAL | EIO | EISCONN | EISDIR | ELOOP | EMFILE | EMLINK
  | EMSGSIZE | EMULTIHOP | ENAMETOOLONG | ENETDOWN | ENETRESET | ENETUNREACH | ENFILE | ENOBUFS
  | ENODEV | ENOENT | ENOEXEC | ENOLCK | ENOLINK | ENOMEM | ENOMSG | ENOPROTOOPT | ENOSPC
  | ENOSYS | ENOTCONN | ENOTDIR | ENOTEMPTY | ENOTRECOVERABLE | ENOTSOCK | ENOTSUP | ENOTTY
  | ENXIO | EOVERFLOW | EOWNERDEAD | EPERM | EPIPE | EPROTO | EPROTONOSUPPORT | EPROTOTYPE
  | ERANGE | EROFS | ESPIPE | ESRCH | ESTALE | ETIMEDOUT | ETXTBSY | EXDEV | ENOTCAPABLE
  deriving DecidableEq, Repr

def Errno.number (errno : Errno) : ℕ := errno.ctorIdx

/-- `ERRNO`: each errno under its name. -/
def ERRNO : List (String × Errno) :=
  [("ESUCCESS", .ESUCCESS), ("E2BIG", .E2BIG), ("EACCES", .EACCES),
    ("EADDRINUSE", .EADDRINUSE), ("EADDRNOTAVAIL", .EADDRNOTAVAIL),
    ("EAFNOSUPPORT", .EAFNOSUPPORT), ("EAGAIN", .EAGAIN), ("EALREADY", .EALREADY),
    ("EBADF", .EBADF), ("EBADMSG", .EBADMSG), ("EBUSY", .EBUSY), ("ECANCELED", .ECANCELED),
    ("ECHILD", .ECHILD), ("ECONNABORTED", .ECONNABORTED), ("ECONNREFUSED", .ECONNREFUSED),
    ("ECONNRESET", .ECONNRESET), ("EDEADLK", .EDEADLK), ("EDESTADDRREQ", .EDESTADDRREQ),
    ("EDOM", .EDOM), ("EDQUOT", .EDQUOT), ("EEXIST", .EEXIST), ("EFAULT", .EFAULT),
    ("EFBIG", .EFBIG), ("EHOSTUNREACH", .EHOSTUNREACH), ("EIDRM", .EIDRM), ("EILSEQ", .EILSEQ),
    ("EINPROGRESS", .EINPROGRESS), ("EINTR", .EINTR), ("EINVAL", .EINVAL), ("EIO", Errno.EIO),
    ("EISCONN", .EISCONN), ("EISDIR", .EISDIR), ("ELOOP", .ELOOP), ("EMFILE", .EMFILE),
    ("EMLINK", .EMLINK), ("EMSGSIZE", .EMSGSIZE), ("EMULTIHOP", .EMULTIHOP),
    ("ENAMETOOLONG", .ENAMETOOLONG), ("ENETDOWN", .ENETDOWN), ("ENETRESET", .ENETRESET),
    ("ENETUNREACH", .ENETUNREACH), ("ENFILE", .ENFILE), ("ENOBUFS", .ENOBUFS),
    ("ENODEV", .ENODEV), ("ENOENT", .ENOENT), ("ENOEXEC", .ENOEXEC), ("ENOLCK", .ENOLCK),
    ("ENOLINK", .ENOLINK), ("ENOMEM", .ENOMEM), ("ENOMSG", .ENOMSG),
    ("ENOPROTOOPT", .ENOPROTOOPT), ("ENOSPC", .ENOSPC), ("ENOSYS", .ENOSYS),
    ("ENOTCONN", .ENOTCONN), ("ENOTDIR", .ENOTDIR), ("ENOTEMPTY", .ENOTEMPTY),
    ("ENOTRECOVERABLE", .ENOTRECOVERABLE), ("ENOTSOCK", .ENOTSOCK), ("ENOTSUP", .ENOTSUP),
    ("ENOTTY", .ENOTTY), ("ENXIO", Errno.ENXIO), ("EOVERFLOW", .EOVERFLOW),
    ("EOWNERDEAD", .EOWNERDEAD), ("EPERM", .EPERM), ("EPIPE", .EPIPE), ("EPROTO", .EPROTO),
    ("EPROTONOSUPPORT", .EPROTONOSUPPORT), ("EPROTOTYPE", .EPROTOTYPE), ("ERANGE", .ERANGE),
    ("EROFS", .EROFS), ("ESPIPE", .ESPIPE), ("ESRCH", .ESRCH), ("ESTALE", .ESTALE),
    ("ETIMEDOUT", .ETIMEDOUT), ("ETXTBSY", .ETXTBSY), ("EXDEV", .EXDEV),
    ("ENOTCAPABLE", .ENOTCAPABLE)]

/-- What the host threw: an error with a code, or a value without one. -/
structure HostError where
  code : Option String
  deriving DecidableEq, Repr

/-- A `RangeError` of the memory's view, which carries no code. -/
def rangeError : HostError := ⟨none⟩

def errnoOf (error : HostError) : Errno :=
  match error.code with
  | some code => (ERRNO.lookup code).getD Errno.EIO
  | none => Errno.EIO

/-- Whether a thrown value is a filesystem error, one whose code is not Node's own. -/
def isFsError (error : HostError) : Bool :=
  match error.code with
  | some code => !"ERR_".toList.isPrefixOf code.toList
  | none => false

/-! ## File types -/

inductive FileType where
  | UNKNOWN | BLOCK_DEVICE | CHARACTER_DEVICE | DIRECTORY | REGULAR_FILE | SOCKET_DGRAM
  | SOCKET_STREAM | SYMBOLIC_LINK
  deriving DecidableEq, Repr

def FileType.number : FileType → ℕ
  | UNKNOWN => 0
  | BLOCK_DEVICE => 1
  | CHARACTER_DEVICE => 2
  | DIRECTORY => 3
  | REGULAR_FILE => 4
  | SOCKET_DGRAM => 5
  | SOCKET_STREAM => 6
  | SYMBOLIC_LINK => 7

/-! ## Rights -/

abbrev Rights := BitVec 64

namespace RIGHT

def bit (i : ℕ) : Rights := 1#64 <<< i

def FD_DATASYNC : Rights := bit 0
def FD_READ : Rights := bit 1
def FD_SEEK : Rights := bit 2
def FD_FDSTAT_SET_FLAGS : Rights := bit 3
def FD_SYNC : Rights := bit 4
def FD_TELL : Rights := bit 5
def FD_WRITE : Rights := bit 6
def FD_ADVISE : Rights := bit 7
def FD_ALLOCATE : Rights := bit 8
def PATH_CREATE_DIRECTORY : Rights := bit 9
def PATH_CREATE_FILE : Rights := bit 10
def PATH_LINK_SOURCE : Rights := bit 11
def PATH_LINK_TARGET : Rights := bit 12
def PATH_OPEN : Rights := bit 13
def FD_READDIR : Rights := bit 14
def PATH_READLINK : Rights := bit 15
def PATH_RENAME_SOURCE : Rights := bit 16
def PATH_RENAME_TARGET : Rights := bit 17
def PATH_FILESTAT_GET : Rights := bit 18
def PATH_FILESTAT_SET_SIZE : Rights := bit 19
def PATH_FILESTAT_SET_TIMES : Rights := bit 20
def FD_FILESTAT_GET : Rights := bit 21
def FD_FILESTAT_SET_SIZE : Rights := bit 22
def FD_FILESTAT_SET_TIMES : Rights := bit 23
def PATH_SYMLINK : Rights := bit 24
def PATH_REMOVE_DIRECTORY : Rights := bit 25
def PATH_UNLINK_FILE : Rights := bit 26
def POLL_FD_READWRITE : Rights := bit 27
def SOCK_SHUTDOWN : Rights := bit 28
def SOCK_ACCEPT : Rights := bit 29

/-- `Object.values(RIGHT)`. -/
def values : List Rights := (List.range 30).map bit

end RIGHT

open RIGHT

def RIGHTS_ALL : Rights := values.foldl (· ||| ·) 0

def RIGHTS_REGULAR_FILE_BASE : Rights :=
  FD_DATASYNC ||| FD_READ ||| FD_SEEK ||| FD_FDSTAT_SET_FLAGS ||| FD_SYNC ||| FD_TELL |||
  FD_WRITE ||| FD_ADVISE ||| FD_ALLOCATE ||| FD_FILESTAT_GET ||| FD_FILESTAT_SET_SIZE |||
  FD_FILESTAT_SET_TIMES ||| POLL_FD_READWRITE

def RIGHTS_REGULAR_FILE_INHERITING : Rights := 0

def RIGHTS_DIRECTORY_BASE : Rights :=
  FD_FDSTAT_SET_FLAGS ||| FD_SYNC ||| FD_ADVISE ||| PATH_CREATE_DIRECTORY |||
  PATH_CREATE_FILE ||| PATH_LINK_SOURCE ||| PATH_LINK_TARGET ||| PATH_OPEN ||| FD_READDIR |||
  PATH_READLINK ||| PATH_RENAME_SOURCE ||| PATH_RENAME_TARGET ||| PATH_FILESTAT_GET |||
  PATH_FILESTAT_SET_SIZE ||| PATH_FILESTAT_SET_TIMES ||| FD_FILESTAT_GET |||
  FD_FILESTAT_SET_TIMES ||| PATH_SYMLINK ||| PATH_UNLINK_FILE ||| PATH_REMOVE_DIRECTORY |||
  POLL_FD_READWRITE

def RIGHTS_DIRECTORY_INHERITING : Rights := RIGHTS_DIRECTORY_BASE ||| RIGHTS_REGULAR_FILE_BASE

def RIGHTS_SOCKET_BASE : Rights :=
  FD_READ ||| FD_FDSTAT_SET_FLAGS ||| FD_WRITE ||| FD_FILESTAT_GET ||| POLL_FD_READWRITE |||
  SOCK_SHUTDOWN ||| SOCK_ACCEPT

def RIGHTS_SOCKET_INHERITING : Rights := RIGHTS_ALL

def RIGHTS_TTY_BASE : Rights :=
  FD_READ ||| FD_FDSTAT_SET_FLAGS ||| FD_WRITE ||| FD_FILESTAT_GET ||| POLL_FD_READWRITE

def RIGHTS_TTY_INHERITING : Rights := 0

/-- `O_RDONLY` and the flags an open adds to an access mode. -/
def O_RDONLY : ℕ := 0
def O_WRONLY : ℕ := 1
def O_RDWR : ℕ := 2
def O_CREAT : ℕ := 64
def O_EXCL : ℕ := 128
def O_TRUNC : ℕ := 512
def O_APPEND : ℕ := 1024

def maximum : FileType → Rights × Rights
  | .REGULAR_FILE => (RIGHTS_REGULAR_FILE_BASE, RIGHTS_REGULAR_FILE_INHERITING)
  | .DIRECTORY => (RIGHTS_DIRECTORY_BASE, RIGHTS_DIRECTORY_INHERITING)
  | .SOCKET_STREAM | .SOCKET_DGRAM => (RIGHTS_SOCKET_BASE, RIGHTS_SOCKET_INHERITING)
  | .CHARACTER_DEVICE | .BLOCK_DEVICE => (RIGHTS_ALL, RIGHTS_ALL)
  | .UNKNOWN | .SYMBOLIC_LINK => (0, 0)

/-- `uvwasi__get_rights`. -/
def rightsFor (type : FileType) (accessFlags : ℕ) : Rights × Rights :=
  let access := accessFlags &&& 3
  if access = O_RDONLY then ((maximum type).1 &&& ~~~FD_WRITE, (maximum type).2)
  else if access = O_WRONLY then ((maximum type).1 &&& ~~~FD_READ, (maximum type).2)
  else maximum type

/-! ## Masks within masks -/

def Within (rights held : Rights) : Prop := ~~~held &&& rights = 0

instance (rights held : Rights) : Decidable (Within rights held) :=
  inferInstanceAs (Decidable (~~~held &&& rights = 0))

theorem within_iff {a b : Rights} :
    Within a b ↔ ∀ i < 64, a.getLsbD i = true → b.getLsbD i = true := by
  rw [Within, BitVec.eq_of_getLsbD_eq_iff]
  refine forall₂_congr fun i hi => ?_
  rw [BitVec.getLsbD_and, BitVec.getLsbD_not, decide_eq_true hi]
  cases a.getLsbD i <;> cases b.getLsbD i <;> simp

theorem Within.refl (a : Rights) : Within a a :=
  within_iff.2 fun _ _ h => h

theorem Within.trans {a b c : Rights} (hab : Within a b) (hbc : Within b c) : Within a c :=
  within_iff.2 fun i hi h => within_iff.1 hbc i hi (within_iff.1 hab i hi h)

theorem Within.and_left {a b c : Rights} (h : Within a c) : Within (a &&& b) c :=
  within_iff.2 fun i hi hab => by
    rw [BitVec.getLsbD_and, Bool.and_eq_true] at hab
    exact within_iff.1 h i hi hab.1

theorem within_and_right (a b : Rights) : Within (a &&& b) b :=
  within_iff.2 fun i _ h => by
    rw [BitVec.getLsbD_and, Bool.and_eq_true] at h
    exact h.2

theorem within_or_iff {a b c : Rights} : Within (a ||| b) c ↔ Within a c ∧ Within b c := by
  simp only [within_iff, BitVec.getLsbD_or, Bool.or_eq_true]
  exact ⟨fun h => ⟨fun i hi ha => h i hi (.inl ha), fun i hi hb => h i hi (.inr hb)⟩,
    fun h i hi hab => hab.elim (h.1 i hi) (h.2 i hi)⟩

theorem Within.of_or_left {a b c : Rights} (h : Within (a ||| b) c) : Within a c :=
  (within_or_iff.1 h).1

theorem Within.of_or_right {a b c : Rights} (h : Within (a ||| b) c) : Within b c :=
  (within_or_iff.1 h).2

theorem within_maximum (type : FileType) (accessFlags : ℕ) :
    Within (rightsFor type accessFlags).1 (maximum type).1 ∧
      Within (rightsFor type accessFlags).2 (maximum type).2 := by
  simp only [rightsFor]
  split_ifs
  · exact ⟨(Within.refl _).and_left, .refl _⟩
  · exact ⟨(Within.refl _).and_left, .refl _⟩
  · exact ⟨.refl _, .refl _⟩

end Wasi

end Tabnode
