import Mathlib.Data.List.Basic
import Tabnode.Data.Machine

/-!
# The write side of a kernel stream

A write is tried at once and is done when the socket takes it whole; what remains waits
in the queue and is sent as the socket can take it. A write that sends a descriptor is
queued, and its first bytes carry the descriptor. The socket's writability is asked once
at a time; a connect in progress holds the queue. A shutdown follows the queued writes,
and a close cancels what is pending. The socket is a list of answers to the calls a turn
makes of it, each the number of bytes taken or a negative error.
-/

namespace Tabnode

namespace KernelStream

def EINTR : Int := 4

def EAGAIN : Int := 11

def EINPROGRESS : Int := 115

def UV_EBADF : Int := -9

def UV_EPIPE : Int := -32

def UV_ENOTCONN : Int := -107

def UV_ECANCELED : Int := -125

def WRITES_PER_READINESS : ℕ := 32

/-- A queued write; `fd` is the descriptor it sends until its first bytes are taken. -/
structure QueuedWrite where
  request : ℕ
  bytes : List UInt8
  sent : ℕ
  fd : Option ℕ
  deriving DecidableEq

/-- What a call of the socket took: bytes of a write, and the descriptor they carried. -/
structure Part where
  request : ℕ
  fd : Option ℕ
  bytes : List UInt8
  deriving DecidableEq

/-- A write the stream accepted: one that is not asynchronous was taken whole at once. -/
structure Accepted where
  bytes : List UInt8
  fd : Option ℕ
  async : Bool
  deriving DecidableEq

structure Wrap where
  /-- None before it is opened and after it is closed. -/
  descriptor : Option ℕ
  writable : Bool
  shut : Bool
  closed : Bool
  /-- A connect is in progress. -/
  held : Bool
  writes : List QueuedWrite
  writeQueueSize : Int
  bytesWritten : ℕ
  shutdown : Option ℕ
  /-- The descriptor whose writability has been asked and not answered. -/
  waitingOut : Option ℕ
  /-- The drains a shutdown has queued for a turn of their own. -/
  drains : ℕ
  /-- The accepted writes: a write's request is its place among them. -/
  accepted : List Accepted
  /-- What the socket has taken, in order. -/
  wire : List Part
  /-- The requests completed, each with its status. -/
  completions : List (ℕ × Int)
  /-- How many shutdown requests have been accepted. -/
  shutdowns : ℕ
  shutdownCompletions : List (ℕ × Int)
  /-- How many writes were queued at each call of the socket's shutdown. -/
  shutCalls : List ℕ
  deriving DecidableEq

/-- The socket answers a call with an error or with how many bytes it takes, and takes
none only when there are none. -/
def Answers (bytes : List UInt8) (taken : Int) : Prop :=
  taken < 0 ∨ (taken ≤ bytes.length ∧ (taken = 0 → bytes = []))

instance (bytes : List UInt8) (taken : Int) : Decidable (Answers bytes taken) :=
  inferInstanceAs (Decidable (_ ∨ _))

def send (bytes : List UInt8) : List Int → Option Int
  | [] => none
  | sent :: rest =>
      if sent = -EINTR then send bytes rest
      else if Answers bytes sent then some sent else none

namespace Wrap

def writesHeld (s : Wrap) : Bool := s.held

/-- The socket's writability, asked once while a connect or a queued write wants it. -/
def waitOut (s : Wrap) : Wrap :=
  if s.waitingOut.isSome || s.descriptor.isNone || s.closed then s
  else { s with waitingOut := s.descriptor }

def finishWrite (s : Wrap) (write : QueuedWrite) (status : Int) : Wrap :=
  if s.writes.any (fun w => w.request == write.request) then
    { s with
      writes := s.writes.eraseP fun w => w.request == write.request
      writeQueueSize := s.writeQueueSize - (write.bytes.length - write.sent)
      completions := s.completions ++ [(write.request, status)] }
  else s

def cancelWrites (s : Wrap) (status : Int) : Wrap :=
  s.writes.foldl (fun s write => s.finishWrite write status) s

def finishShutdown (s : Wrap) (status : Int) : Wrap :=
  match s.shutdown with
  | none => s
  | some request =>
      { s with
        shutdown := none
        shutdownCompletions := s.shutdownCompletions ++ [(request, status)] }

def drain (s : Wrap) (answer : Int) : Wrap :=
  if s.shutdown.isNone || !s.writes.isEmpty then s
  else
    let called :=
      { s with
        shutCalls := s.shutCalls ++ [s.writes.length]
        shut := if 0 ≤ answer then true else s.shut }
    called.finishShutdown (if answer < 0 then answer else 0)

def resumeWrites (s : Wrap) (answer : Int) : Wrap :=
  if s.writes.isEmpty then
    if s.shutdown.isSome then s.drain answer else s
  else s.waitOut

def taken (s : Wrap) (write : QueuedWrite) (later : List QueuedWrite) (count : ℕ) : Wrap :=
  { s with
    writes := { write with fd := none, sent := write.sent + count } :: later
    bytesWritten := s.bytesWritten + count
    writeQueueSize := s.writeQueueSize - count
    wire := s.wire ++ [⟨write.request, write.fd, (write.bytes.drop write.sent).take count⟩] }

def flushWrites (answer : Int) : List Int → ℕ → Wrap → Option Wrap
  | [], _, s => if s.writes.isEmpty then some (s.drain answer) else none
  | sent :: rest, count, s =>
      match s.writes with
      | [] => some (s.drain answer)
      | write :: later =>
          -- an interrupted call is made again
          if sent = -EINTR then flushWrites answer rest count s
          else if ¬ Answers (write.bytes.drop write.sent) sent then none
          else if sent = -EAGAIN then some s.waitOut
          else if sent < 0 then some (s.finishWrite write sent)
          else
            let now := { write with fd := none, sent := write.sent + sent.toNat }
            let s := s.taken write later sent.toNat
            if now.sent < now.bytes.length then flushWrites answer rest count s
            else if count - 1 = 0 then some (s.finishWrite now 0).waitOut
            else flushWrites answer rest (count - 1) (s.finishWrite now 0)

end Wrap

/-- What a write answers its caller. -/
structure Answer where
  status : Int
  bytesWritten : ℕ
  async : Bool
  deriving DecidableEq

namespace Wrap

def acceptWhole (s : Wrap) (bytes : List UInt8) : Wrap :=
  { s with
    bytesWritten := s.bytesWritten + bytes.length
    accepted := s.accepted ++ [⟨bytes, none, false⟩]
    wire := if bytes = [] then s.wire else s.wire ++ [⟨s.accepted.length, none, bytes⟩] }

/-- The rest of a write is queued: the socket was not asked, or could not take it now, or
took `sent` bytes of it. -/
def push (s : Wrap) (bytes : List UInt8) (fd : Option ℕ) (sent : ℕ) : Wrap :=
  { s with
    bytesWritten := s.bytesWritten + sent
    writes := s.writes ++ [⟨s.accepted.length, bytes, sent, fd⟩]
    writeQueueSize := s.writeQueueSize + (bytes.length - sent)
    accepted := s.accepted ++ [⟨bytes, fd, true⟩]
    wire :=
      if sent = 0 then s.wire
      else s.wire ++ [⟨s.accepted.length, none, bytes.take sent⟩] }

/-- A write: `handle` is the descriptor of the handle it sends, or the error of a handle
that cannot be sent. -/
def dispatchWrite (s : Wrap) (bytes : List UInt8) (handle : Option Int) (sends : List Int)
    (answer : Int) : Option (Answer × Wrap) :=
  let refused (status : Int) : Option (Answer × Wrap) := some (⟨status, bytes.length, false⟩, s)
  let queued : Answer := ⟨0, bytes.length, true⟩
  if handle.any (· < 0) then refused (handle.getD 0)
  else if s.closed then refused UV_EBADF
  else if !s.writable || s.descriptor.isNone then refused UV_EPIPE
  else
    match handle with
    | none =>
        if s.writes.isEmpty && !s.writesHeld then
          (send bytes sends).map fun sent =>
            if sent < 0 ∧ sent ≠ -EAGAIN then (⟨sent, bytes.length, false⟩, s)
            else if sent.toNat = bytes.length then (⟨0, bytes.length, false⟩, s.acceptWhole bytes)
            else (queued, (s.push bytes none sent.toNat).waitOut)
        else if s.writesHeld then some (queued, s.push bytes none 0)
        else some (queued, (s.push bytes none 0).waitOut)
    | some fd =>
        let pushed := s.push bytes (some fd.toNat) 0
        if s.writes.isEmpty && !s.writesHeld then
          (flushWrites answer sends WRITES_PER_READINESS pushed).map fun s => (queued, s)
        else if s.writesHeld then some (queued, pushed)
        else some (queued, pushed.waitOut)

def shutdownWrites (s : Wrap) : Int × Wrap :=
  if !s.writable || s.shut || s.shutdown.isSome || s.closed || s.descriptor.isNone then
    (UV_ENOTCONN, s)
  else
    (0, { s with
      writable := false
      shutdown := some s.shutdowns
      shutdowns := s.shutdowns + 1
      drains := if s.writes.isEmpty && !s.writesHeld then s.drains + 1 else s.drains })

/-- What was pending is cancelled and the descriptor goes; a connect in progress is over. -/
def close (s : Wrap) : Wrap :=
  if s.closed then s
  else
    { (s.cancelWrites UV_ECANCELED).finishShutdown UV_ECANCELED with
      held := false
      descriptor := none
      closed := true }

end Wrap

/-- A call on the stream, with what the socket answers while it runs. -/
inductive Call where
  | write (bytes : List UInt8) (handle : Option Int) (sends : List Int) (answer : Int)
  | shutdown
  | cancelWrites (status : Int)
  | close
  deriving DecidableEq

def perform (s : Wrap) : Call → Option Wrap
  | .write bytes handle sends answer =>
      (s.dispatchWrite bytes handle sends answer).map Prod.snd
  | .shutdown => some s.shutdownWrites.2
  | .cancelWrites status => if status < 0 then some (s.cancelWrites status) else none
  | .close => some s.close

def connected (s : Wrap) (error : Int) (calls : List Call) (answer : Int) : Option Wrap :=
  if !s.held then some s
  else if error = -EINPROGRESS then some s.waitOut
  else
    (Machine.run perform { s with held := false } calls).map fun s =>
      if s.descriptor.isNone then s
      else if error < 0 then s.cancelWrites UV_ECANCELED
      else s.resumeWrites answer

inductive Act where
  | call (c : Call)
  /-- The turn of a readiness that was asked for. -/
  | writable (error : Int) (calls : List Call) (sends : List Int) (answer : Int)
  /-- The turn of a connect whose outcome was known at once. -/
  | connected (error : Int) (calls : List Call) (answer : Int)
  /-- The turn of a drain that a shutdown queued. -/
  | drain (answer : Int)
  deriving DecidableEq

def step (s : Wrap) : Act → Option Wrap
  | .call c => perform s c
  | .writable error calls sends answer =>
      match s.waitingOut with
      | none => none
      | some fd =>
          let s := { s with waitingOut := none }
          if s.closed || s.descriptor != some fd then some s
          else if s.held then connected s error calls answer
          else s.flushWrites answer sends WRITES_PER_READINESS
  | .connected error calls answer => connected s error calls answer
  | .drain answer =>
      match s.drains with
      | 0 => none
      | n + 1 => some ({ s with drains := n }.drain answer)

/-- A stream opened on a descriptor, its connect in progress or not, its writability
asked or not. -/
def start (fd : ℕ) (held waiting : Bool) : Wrap where
  descriptor := some fd
  writable := true
  shut := false
  closed := false
  held := held
  writes := []
  writeQueueSize := 0
  bytesWritten := 0
  shutdown := none
  waitingOut := if waiting then some fd else none
  drains := 0
  accepted := []
  wire := []
  completions := []
  shutdowns := 0
  shutdownCompletions := []
  shutCalls := []

end KernelStream

end Tabnode
