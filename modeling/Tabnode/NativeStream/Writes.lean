import Mathlib.Algebra.Order.Ring.Int
import Tabnode.Data.Machine
import Tabnode.NativeStream.Chunks

/-!
# The writes of a stream handle

The chunks of a write go to the owner one after the other, each when the one before has been
taken, except that a write that fits in one chunk is first attempted whole where nothing
waits. What waits is a queue, which one asynchronous function empties, and a shutdown that is
asked for meanwhile waits with it. What the transport and the owner answer is part of each
action; the log is what the transport has been handed, in its order.
-/

namespace Tabnode

namespace NativeStream

def uvEbadf : ℤ := -9

def uvEagain : ℤ := -11

def uvEinval : ℤ := -22

def uvEpipe : ℤ := -32

def uvEnosys : ℤ := -38

def uvEcanceled : ℤ := -125

/-- A write that is under way, with the number of its request and the descriptor it sends
along; the bounded attempt of one that is submitted has its bytes already. -/
structure PendingWrite where
  request : ℕ
  parts : List (List UInt8)
  bytes : ℕ
  sent : Option ℕ
  submitted : Bool
  deriving DecidableEq

/-- What `pumpWrites` awaits: the answer to an attempt, the answer to a chunk of so many bytes
with these still to come, or the end of its own `writeNext`. -/
inductive Pump where
  | idle
  | attempt (request : ℕ)
  | chunk (request length : ℕ) (rest : List (List UInt8))
  | turn
  deriving DecidableEq

/-- What the transport has been handed. An attempt is one that it may have taken. -/
inductive Entry where
  | attempt (request : ℕ) (bytes : List UInt8)
  | chunk (request : ℕ) (bytes : List UInt8)
  | shutdown
  deriving DecidableEq

def Entry.request? : Entry → Option ℕ
  | .attempt request _ => some request
  | .chunk request _ => some request
  | .shutdown => none

/-- The write side of a `NativeStreamDriver`, and the realm's word that its owner is gone.
Beside it the parts of each write it took on, what it handed over, and how writes ended. -/
structure Driver where
  pipe : Bool
  bounded : Bool
  limit : ℕ
  writes : List PendingWrite
  pump : Pump
  writeEnded : Bool
  pendingShutdown : Bool
  closing : Bool
  stopped : Bool
  bytesWritten : ℕ
  writeQueueSize : ℕ
  requests : List (List (List UInt8))
  log : List Entry
  finished : List (ℕ × ℤ)
  deriving DecidableEq

/-- What goes wrong within a step: handing over a chunk, or closing a sent descriptor after
the first chunk or at the end of the write. -/
structure Answers where
  writeThrows : Bool
  closeThrows : Bool
  endThrows : Bool
  deriving DecidableEq

/-- The answer to the call that duplicates a handle which is sent along. -/
inductive Duplicated where
  | thrown
  | answered (status : ℤ) (handle : Option ℕ)
  deriving DecidableEq

/-- A handle sent along: whether it has a driver, and the answer to its duplication. -/
structure Sent where
  driver : Bool
  duplicated : Duplicated
  deriving DecidableEq

/-- The answer to `tryWriteWithinBudget`. -/
inductive Attempt where
  | none
  | status (code : ℤ)
  | pending
  | thrown
  deriving DecidableEq

namespace Driver

def new (pipe bounded : Bool) (limit : ℕ) : Driver where
  pipe := pipe
  bounded := bounded
  limit := limit
  writes := []
  pump := .idle
  writeEnded := false
  pendingShutdown := false
  closing := false
  stopped := false
  bytesWritten := 0
  writeQueueSize := 0
  requests := []
  log := []
  finished := []

def failure (s : Driver) : ℤ := if s.stopped then uvEcanceled else uvEpipe

def closeDescriptor (s : Driver) (throws : Bool) : Bool := !s.stopped && throws

def handOver (s : Driver) (entry : Entry) : Driver := { s with log := s.log ++ [entry] }

def finishWrite (s : Driver) (write : PendingWrite) (status : ℤ) (throws : Bool) : Driver :=
  { s with
    writes := s.writes.filter (·.request ≠ write.request)
    writeQueueSize :=
      if s.writes.any (·.request = write.request) then s.writeQueueSize - write.bytes
      else s.writeQueueSize
    finished := s.finished ++ [(write.request,
      if write.sent.isSome && s.closeDescriptor throws then uvEcanceled else status)] }

/-- The end of `writeNext`, where the write ends too. -/
def endNext (s : Driver) (write : PendingWrite) (status : ℤ) (answers : Answers) : Driver :=
  { s.finishWrite write status answers.endThrows with pump := .turn }

/-- The loop of `writeNext` over the chunks that are left. -/
def nextChunk (s : Driver) (write : PendingWrite) (answers : Answers) :
    List (List UInt8) → Driver
  | [] => s.endNext write 0 answers
  | chunk :: rest =>
      if s.closing || s.stopped then s.endNext write uvEcanceled answers
      else
        let s := s.handOver (.chunk write.request chunk)
        if answers.writeThrows then s.endNext write s.failure answers
        else { s with pump := .chunk write.request chunk.length rest }

def writeNext (s : Driver) (answers : Answers) : Driver :=
  match s.writes with
  | [] => { s with pump := .turn }
  | write :: _ =>
    if write.submitted then { s with pump := .attempt write.request }
    else s.nextChunk write answers (writeChunks write.parts s.limit)

/-- Where the answer to an attempt arrives; a write that is in the queue no more has ended. -/
def attemptSettled (s : Driver) (request : ℕ) (status : Option ℤ) (answers : Answers) : Driver :=
  match s.writes.find? (·.request = request), status with
  | none, _ => { s with pump := .turn }
  | some write, none => s.endNext write s.failure answers
  | some write, some status =>
    let s := if status = 0 then { s with bytesWritten := s.bytesWritten + write.bytes } else s
    s.endNext write status answers

def chunkSettled (s : Driver) (request length : ℕ) (rest : List (List UInt8))
    (status : Option ℤ) (answers : Answers) : Driver :=
  match s.writes.find? (·.request = request), status with
  | none, _ => { s with pump := .turn }
  | some write, none => s.endNext write s.failure answers
  | some write, some status =>
    if write.sent.isSome && s.closeDescriptor answers.closeThrows then
      s.endNext write s.failure answers
    else
      let write := { write with sent := none }
      let s : Driver := { s with
        writes := s.writes.map fun other => if other.request = request then write else other }
      if status ≠ 0 then s.endNext write status answers
      else nextChunk { s with bytesWritten := s.bytesWritten + length } write answers rest

def flushShutdown (s : Driver) : Driver :=
  if s.writes ≠ [] ∨ s.pendingShutdown = false then s
  else
    let s := { s with pendingShutdown := false }
    if s.closing || s.stopped then s else s.handOver .shutdown

/-- A round of the loop of `pumpWrites`, or its end. -/
def pumpWrites (s : Driver) (answers : Answers) : Driver :=
  if s.writes = [] then flushShutdown { s with pump := .idle } else s.writeNext answers

/-- The descriptor that is kept of a handle sent along, or what `write` answers without one. -/
def retained (s : Driver) : Option Sent → Except (Option ℤ) (Option ℕ)
  | none => .ok none
  | some sent =>
    if !sent.driver || !s.pipe then .error (some uvEinval)
    else
      match sent.duplicated with
      | .thrown => .error none
      | .answered status none => .error (some (if status = 0 then uvEbadf else status))
      | .answered status (some handle) =>
        if status = 0 then .ok (some handle) else .error (some status)

def enqueue (s : Driver) (write : PendingWrite) (answers : Answers) : Option ℤ × Driver :=
  let s := { s with
    writeQueueSize := s.writeQueueSize + write.bytes
    writes := s.writes ++ [write] }
  (some 0, if s.pump = .idle then s.pumpWrites answers else s)

def attemptWrite (s : Driver) (write : PendingWrite) (attempt : Attempt) (answers : Answers) :
    Option ℤ × Driver :=
  let taken := s.handOver (.attempt write.request ((writeChunks write.parts s.limit).headD []))
  match attempt with
  | .none => s.enqueue write answers
  | .thrown => (some s.failure, taken.finishWrite write s.failure answers.endThrows)
  | .pending => taken.enqueue { write with submitted := true } answers
  | .status code =>
    if code = uvEagain ∨ code = uvEnosys then s.enqueue write answers
    else
      let taken :=
        if code = 0 then { taken with bytesWritten := taken.bytesWritten + write.bytes }
        else taken
      (some code, taken.finishWrite write code answers.endThrows)

/-- What `write` answers, or none where it throws. -/
def write (s : Driver) (parts : List (List UInt8)) (sent : Option Sent) (attempt : Attempt)
    (answers : Answers) : Option ℤ × Driver :=
  let bytes := (parts.map List.length).sum
  if s.closing || s.stopped then (some uvEbadf, s)
  else if s.writeEnded then (some uvEpipe, s)
  else if 2 ^ 53 ≤ bytes then (some uvEinval, s)
  else if bytes = 0 then (some (if sent.isNone then 0 else uvEinval), s)
  else
    match s.retained sent with
    | .error answer => (answer, s)
    | .ok kept =>
      let write : PendingWrite := ⟨s.requests.length, parts, bytes, kept, false⟩
      let s := { s with requests := s.requests ++ [parts] }
      if kept = none ∧ s.writes = [] ∧ s.pump = .idle ∧ bytes ≤ s.limit ∧ s.bounded = true then
        s.attemptWrite write attempt answers
      else s.enqueue write answers

/-- What `shutdown` answers, or none where it throws; the owner's answer is given. -/
def shutdown (s : Driver) (answer : Option ℤ) : Option ℤ × Driver :=
  if s.closing || s.stopped then (some uvEbadf, s)
  else if s.writeEnded then (some uvEpipe, s)
  else
    let s := { s with writeEnded := true }
    if s.writes = [] then (answer, s.handOver .shutdown)
    else (some 0, { s with pendingShutdown := true })

def ownerStopped (s : Driver) : Driver :=
  let s := { s with closing := true }
  (s.writes.foldl (fun s write => s.finishWrite write uvEcanceled false) s).flushShutdown

end Driver

/-- What happens to a driver. The realm notes that its owner is gone before it tells each
driver. -/
inductive WriteAction where
  | write (parts : List (List UInt8)) (sent : Option Sent) (attempt : Attempt)
      (answers : Answers)
  | settled (status : Option ℤ) (answers : Answers)
  | turn (answers : Answers)
  | shutdown (answer : Option ℤ)
  | close
  | stop
  | ownerStopped
  deriving DecidableEq

open Driver

def stepWrites (s : Driver) : WriteAction → Option Driver
  | .write parts sent attempt answers => some (s.write parts sent attempt answers).2
  | .settled status answers =>
    match s.pump with
    | .attempt request => some (s.attemptSettled request status answers)
    | .chunk request length rest => some (s.chunkSettled request length rest status answers)
    | _ => none
  | .turn answers => if s.pump = .turn then some (s.pumpWrites answers) else none
  | .shutdown answer => some (s.shutdown answer).2
  | .close => some { s with closing := true }
  | .stop => some { s with stopped := true }
  | .ownerStopped => if s.stopped then some s.ownerStopped else none

end NativeStream

end Tabnode
