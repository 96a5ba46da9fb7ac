import Mathlib.Data.Int.Notation
import Mathlib.Data.List.Basic
import Tabnode.Data.Machine

/-!
# A stream handle and its owner

A realm's stream handle whose bytes the handle of an owner in another realm reads for
it. The realm posts `readStart`, calls `readStop`, and the owner takes both in their
order; what the owner reads comes back as events, in theirs. Both handles are the same
`StreamWrap`, whose `flushInbound` hands what has arrived to `onread` while the handle
is reading. In the realm `onread` is the guest's own code, which may start and stop
reading from inside it, so that flushes nest; at the owner it takes the one read credit
back and publishes an event.
-/

namespace Tabnode

namespace NativeStream

/-- What `onread` is given: bytes, or a status when there are none. -/
inductive Read where
  | bytes (bytes : List UInt8)
  | status (code : ℤ)
  deriving DecidableEq

def uvEof : ℤ := -4095

/-- A handle on one end of a connection: whether it reads, what has arrived for it, and
whether a flush of that has a turn coming. -/
structure StreamWrap where
  reading : Bool
  inbound : List (List UInt8)
  eof : Bool
  error : Option ℤ
  eofDelivered : Bool
  userBuffer : Option ℕ
  flushScheduled : Bool
  deriving DecidableEq

namespace StreamWrap

def new : StreamWrap := ⟨false, [], false, none, false, none, false⟩

def receive (s : StreamWrap) (bytes : List UInt8) : StreamWrap :=
  { s with inbound := s.inbound ++ [bytes], flushScheduled := true }

def receiveEof (s : StreamWrap) : StreamWrap := { s with eof := true, flushScheduled := true }

def receiveError (s : StreamWrap) (code : ℤ) : StreamWrap :=
  { s with error := some code, flushScheduled := true }

/-- What the loop of `flushInbound` hands to `onread` next, and the handle then; none
where the loop ends. -/
def flushNext (s : StreamWrap) : Option (Read × StreamWrap) :=
  match s.reading, s.inbound with
  | false, _ => none
  | true, bytes :: rest =>
    match s.userBuffer with
    | some length =>
      let taken := min length bytes.length
      let left := if taken < bytes.length then bytes.drop taken :: rest else rest
      some (.bytes (bytes.take taken), { s with inbound := left })
    | none => some (.bytes bytes, { s with inbound := rest })
  | true, [] =>
    if !s.eofDelivered && (s.error.isSome || s.eof) then
      some (.status (s.error.getD uvEof), { s with eofDelivered := true })
    else none

end StreamWrap

/-- What the realm asks of the owner. -/
inductive Operation where
  | readStart
  | readStop
  deriving DecidableEq

/-- Where a call of `flushInbound` in the realm stands: at the test of its loop, in an
`onread` of bytes, or in the `onread` of the end. -/
inductive Frame where
  | loop
  | data
  | ended
  deriving DecidableEq

/-- The realm's side: its handle, the driver's flags, the calls of `flushInbound` under
way, innermost first, and whether its thread is held in the call of `endRead`. -/
structure Realm where
  stream : StreamWrap
  readingCredit : Bool
  buffered : Bool
  readEnded : Bool
  stack : List Frame
  waiting : Bool
  deriving DecidableEq

/-- The two sides and what is between them: operations and events not yet taken, and
whether the owner has answered the call the realm waits in. Beside them, what the peer
wrote, the owner read, and the guest was given. -/
structure World where
  realm : Realm
  owner : StreamWrap
  operations : List Operation
  replied : Bool
  events : List Read
  written : List UInt8
  ownerRead : List UInt8
  delivered : List UInt8
  deriving DecidableEq

def World.new : World where
  realm := ⟨.new, false, false, false, [], false⟩
  owner := .new
  operations := []
  replied := false
  events := []
  written := []
  ownerRead := []
  delivered := []

/-! ## The realm -/

/-- `beginRead`: one grant at a time, and none while there is something to deliver or
after the end. -/
def World.beginRead (w : World) : World :=
  if w.realm.readingCredit || w.realm.buffered || w.realm.readEnded then w
  else { w with
    realm := { w.realm with readingCredit := true }
    operations := w.operations ++ [.readStart] }

def World.noteFlushed (w : World) : World :=
  { w with
    realm := { w.realm with
      buffered := !w.realm.stream.inbound.isEmpty
      readEnded := w.realm.readEnded || w.realm.stream.eofDelivered } }

/-- `readFlushed`: a handle that reads and has nothing left asks for more. -/
def World.readFlushed (w : World) : World :=
  let w := w.noteFlushed
  if w.realm.stream.reading && w.realm.stream.inbound.isEmpty && !w.realm.readEnded then
    w.beginRead
  else w

/-- The guest's code runs: the realm's thread is not held, and is in an `onread` or in a
task of the guest's own. -/
def Realm.guestRuns (r : Realm) : Bool :=
  !r.waiting && match r.stack with
    | .loop :: _ => false
    | _ => true

def Realm.atTurn (r : Realm) : Bool := !r.waiting && r.stack.isEmpty

/-- `readStart`, up to the flush it makes. -/
def World.readStart (w : World) : World :=
  let w := w.beginRead
  { w with realm := { w.realm with
      stream := { w.realm.stream with reading := true }
      stack := .loop :: w.realm.stack } }

/-- `readStop`, up to the answer of the call that `endRead` makes. -/
def World.readStop (w : World) : World :=
  let stream := { w.realm.stream with reading := false }
  if w.realm.readingCredit then
    { w with
      realm := { w.realm with stream, waiting := true }
      operations := w.operations ++ [.readStop] }
  else { w with realm := { w.realm with stream } }

def World.flushStep (w : World) : Option World :=
  match w.realm.stack with
  | .loop :: rest =>
    match w.realm.stream.flushNext with
    | some (.bytes bytes, stream) =>
      some { w with
        realm := { w.realm with stream, stack := .data :: rest }
        delivered := w.delivered ++ bytes }
    | some (.status _, stream) =>
      some { w with realm := { w.realm with stream, stack := .ended :: rest } }
    | none => some (World.readFlushed { w with realm := { w.realm with stack := rest } })
  | _ => none

/-- An `onread` that returns, or throws, which ends the flush. -/
def World.onreadDone (w : World) (throws : Bool) : Option World :=
  match w.realm.stack with
  | .data :: rest =>
    if throws then some (World.readFlushed { w with realm := { w.realm with stack := rest } })
    else some { w with realm := { w.realm with stack := .loop :: rest } }
  | .ended :: rest => some (World.readFlushed { w with realm := { w.realm with stack := rest } })
  | _ => none

/-- `receive`, for a read event. -/
def Realm.receive (r : Realm) : Read → Realm
  | .bytes bytes =>
    { r with readingCredit := false, buffered := true, stream := r.stream.receive bytes }
  | .status code =>
    { r with
      readingCredit := false
      buffered := true
      readEnded := true
      stream := r.stream.receiveError code }

/-! ## The owner -/

/-- `flushInbound` at the owner: its `onread` stops the handle, so that one grant is one
event. -/
def World.ownerFlush (w : World) : World :=
  match w.owner.flushNext with
  | none => w
  | some (.bytes bytes, owner) =>
    { w with
      owner := { owner with reading := false }
      events := w.events ++ [if bytes.isEmpty then .status 0 else .bytes bytes]
      ownerRead := w.ownerRead ++ bytes }
  | some (.status code, owner) =>
    { w with
      owner := { owner with reading := false }
      events := w.events ++ [.status code] }

def World.ownerTake (maxReadChunkBytes : ℕ) (w : World) : Option World :=
  match w.operations with
  | [] => none
  | .readStart :: operations =>
    some (World.ownerFlush { w with
      operations
      owner := { w.owner with reading := true, userBuffer := some maxReadChunkBytes } })
  | .readStop :: operations =>
    some { w with operations, replied := true, owner := { w.owner with reading := false } }

/-! ## Interleavings -/

/-- What may happen next: a call of the guest's, the guest's `onread` ending, the engine
going on with a flush or out of a call, a turn of either loop, the owner taking an
operation, or the peer writing or ending. -/
inductive Action where
  | readStart
  | readStop
  | useUserBuffer (length : ℕ)
  | onreadDone (throws : Bool)
  | resume
  | flushStep
  | flushTurn
  | deliver
  | ownerTake
  | ownerTurn
  | peerWrite (bytes : List UInt8)
  | peerEnd
  deriving DecidableEq

def step (maxReadChunkBytes : ℕ) (w : World) : Action → Option World
  | .readStart => if w.realm.guestRuns then some w.readStart else none
  | .readStop => if w.realm.guestRuns then some w.readStop else none
  | .useUserBuffer length =>
    if w.realm.guestRuns then
      some { w with realm := { w.realm with
        stream := { w.realm.stream with userBuffer := some length } } }
    else none
  | .onreadDone throws => if w.realm.guestRuns then w.onreadDone throws else none
  | .resume =>
    if w.realm.waiting && w.replied then
      some { w with
        replied := false
        realm := { w.realm with waiting := false, readingCredit := false } }
    else none
  | .flushStep => if w.realm.waiting then none else w.flushStep
  | .flushTurn =>
    if w.realm.atTurn && w.realm.stream.flushScheduled then
      some { w with realm := { w.realm with
        stream := { w.realm.stream with flushScheduled := false }
        stack := [.loop] } }
    else none
  | .deliver =>
    match w.events with
    | [] => none
    | event :: events =>
      if w.realm.atTurn then some { w with realm := w.realm.receive event, events } else none
  | .ownerTake => w.ownerTake maxReadChunkBytes
  | .ownerTurn =>
    if w.owner.flushScheduled then
      some (World.ownerFlush { w with owner := { w.owner with flushScheduled := false } })
    else none
  | .peerWrite bytes =>
    if w.owner.eof then none
    else if bytes.isEmpty then some w
    else some { w with owner := w.owner.receive bytes, written := w.written ++ bytes }
  | .peerEnd => some { w with owner := w.owner.receiveEof }

end NativeStream

end Tabnode
