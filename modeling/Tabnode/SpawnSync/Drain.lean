import Mathlib.Algebra.Order.Field.Rat
import Mathlib.Data.List.Basic

/-!
# The pipes of a synchronous child

A process that runs a child synchronously serves the pipes of the child itself, in one loop
over a blocking `poll`: what the child reads is sent it and shut down, what it writes is read to
its end and kept, and where the time is over or too much has been kept the child is killed. The
kernel is a parameter: its state is any type, and each call is any function of it.
-/

namespace Tabnode

namespace SpawnSync

def eintr : ℤ := 4

def eagain : ℤ := 11

def uvEnobufs : ℤ := -105

def uvEtimedout : ℤ := -110

def pollin : ℕ := 1

def pollout : ℕ := 4

/-! ## The stdio of a child -/

/-- What an entry of the options asks for. -/
inductive StdioType where
  | pipe
  | overlapped
  | ignore
  | inherit
  | fd
  | wrap
  deriving DecidableEq

structure SyncStdioEntry where
  type : StdioType
  fd : Option ℕ
  input : Option (List UInt8)
  readable : Option Bool
  writable : Option Bool
  deriving DecidableEq

/-- What the preparation is asked for. -/
inductive ChildStdioEntry where
  | pipe
  | inherit (fd : ℕ)
  | ignore
  | none
  deriving DecidableEq

/-- One of the realm's ends of a child's pipe: what the child's descriptor `index` is read and
written through. -/
structure SyncPipe where
  fd : ℕ
  index : ℕ
  reading : Bool
  writing : Bool
  input : List UInt8
  sent : ℕ
  deriving DecidableEq

def childEntry (index : ℕ) : Option SyncStdioEntry → ChildStdioEntry
  | none => if index < 3 then .ignore else .none
  | some entry =>
    match entry.type with
    | .pipe => .pipe
    | .overlapped => .pipe
    | .inherit => .inherit (entry.fd.getD index)
    | .fd => .inherit (entry.fd.getD index)
    | .ignore => .ignore
    | .wrap => .none

def childEntries (stdio : List SyncStdioEntry) : List ChildStdioEntry :=
  (List.range (max 3 stdio.length)).map fun index => childEntry index stdio[index]?

def syncPipe (stdio : List SyncStdioEntry) (parentEnd : ℕ → Option ℕ) (index : ℕ) :
    Option SyncPipe :=
  match stdio[index]?, childEntry index stdio[index]?, parentEnd index with
  | some given, .pipe, some fd =>
    let writing := given.readable.getD (index == 0)
    some ⟨fd, index, given.writable.getD (index != 0), writing,
      if writing then given.input.getD [] else [], 0⟩
  | _, _, _ => none

def syncStdio (stdio : List SyncStdioEntry)
    (prepare : List ChildStdioEntry → Except ℤ (ℕ → Option ℕ)) : Except ℤ (List SyncPipe) :=
  match prepare (childEntries stdio) with
  | .error code => .error code
  | .ok parentEnd =>
    .ok ((List.range (max 3 stdio.length)).filterMap (syncPipe stdio parentEnd))

theorem sent_of_syncStdio {stdio : List SyncStdioEntry}
    {prepare : List ChildStdioEntry → Except ℤ (ℕ → Option ℕ)} {pipes : List SyncPipe}
    (h : syncStdio stdio prepare = .ok pipes) : ∀ pipe ∈ pipes, pipe.sent = 0 := by
  rw [syncStdio] at h
  split at h
  · cases h
  · cases h
    intro pipe hpipe
    obtain ⟨index, -, hsome⟩ := List.mem_filterMap.1 hpipe
    unfold syncPipe at hsome
    split at hsome
    · cases hsome
      rfl
    · cases hsome

/-! ## The kernel -/

structure PollDescriptor where
  fd : ℕ
  events : ℕ
  deriving DecidableEq

/-- The calls that the loop makes, over any state of the kernel. `poll` answers how many are
ready and the events of each by its place, and `recvfrom` what its room holds then. No call
takes or gives more than there is. -/
structure TreeSockets (κ : Type*) where
  now : κ → κ × ℚ
  shutdown : κ → ℕ → κ × ℤ
  poll : κ → List PollDescriptor → ℚ → κ × ℤ × (ℕ → ℕ)
  sendto : κ → ℕ → List UInt8 → κ × ℤ
  recvfrom : κ → ℕ → κ × ℤ × List UInt8
  sendto_le : ∀ kernel fd bytes, (sendto kernel fd bytes).2 ≤ bytes.length
  recvfrom_le : ∀ kernel fd, (recvfrom kernel fd).2.1 ≤ (recvfrom kernel fd).2.2.length

/-- The deadline and the most bytes that are kept, none where it is `Infinity`; the binding
takes positive numbers only. -/
structure DrainLimits where
  deadline : Option ℚ
  maxBuffer : Option ℚ
  maxBuffer_nonneg : ∀ most ∈ maxBuffer, 0 ≤ most

def DrainLimits.overflows (limits : DrainLimits) (buffered : ℕ) : Bool :=
  limits.maxBuffer.any fun most => decide (most < (buffered : ℚ))

def DrainLimits.expired (limits : DrainLimits) (now : ℚ) : Bool :=
  limits.deadline.any fun deadline => decide (deadline ≤ now)

/-- What the loop does and is answered, by the place of the pipe; `keep` is given the child's
descriptor. -/
inductive Event where
  | shutdown (pipe : ℕ) (status : ℤ)
  | sent (pipe : ℕ) (bytes : List UInt8)
  | received (pipe : ℕ) (bytes : List UInt8)
  | ended (pipe : ℕ)
  | failed (pipe : ℕ) (error : ℤ)
  | keep (index : ℕ) (bytes : List UInt8)
  | kill
  | close
  deriving DecidableEq

/-- The runner's error, else the first of a pipe's. -/
structure DrainOutcome where
  error : Option ℤ
  pipeError : Option ℤ
  deriving DecidableEq

/-- The variables of the loop and the state of the kernel, and what has happened so far. -/
structure Drain (κ : Type*) where
  kernel : κ
  pipes : List SyncPipe
  buffered : ℕ
  pipeError : Option ℤ
  log : List Event

/-! ## The loop -/

namespace Drain

variable {κ : Type*}

def new (kernel : κ) (pipes : List SyncPipe) : Drain κ := ⟨kernel, pipes, 0, none, []⟩

def update (s : Drain κ) (pipe : ℕ) (f : SyncPipe → SyncPipe) (event : Event) : Drain κ :=
  { s with pipes := s.pipes.modify pipe f, log := s.log ++ [event] }

def fail (s : Drain κ) (pipe : ℕ) (error : ℤ) : Drain κ :=
  let s := s.update pipe (fun p => { p with reading := false, writing := false })
    (.failed pipe error)
  { s with pipeError := some (s.pipeError.getD error) }

def shutdown (sockets : TreeSockets κ) (s : Drain κ) (pipe : ℕ) : Drain κ :=
  match s.pipes[pipe]? with
  | none => s
  | some p =>
    if p.writing = true ∧ p.input.length ≤ p.sent then
      let shut := sockets.shutdown s.kernel p.fd
      let s := { s with kernel := shut.1 }.update pipe (fun p => { p with writing := false })
        (.shutdown pipe shut.2)
      if shut.2 < 0 then s.fail pipe shut.2 else s
    else s

def asked (s : Drain κ) : List ℕ :=
  (List.range s.pipes.length).filter fun pipe =>
    s.pipes[pipe]?.any fun p => p.reading || p.writing

def pollDescriptor (p : SyncPipe) : PollDescriptor :=
  ⟨p.fd, (if p.reading then pollin else 0) ||| if p.writing then pollout else 0⟩

def send (sockets : TreeSockets κ) (s : Drain κ) (pipe : ℕ) : Drain κ :=
  match s.pipes[pipe]? with
  | none => s
  | some p =>
    if p.writing = true ∧ p.sent < p.input.length then
      let answer := sockets.sendto s.kernel p.fd (p.input.drop p.sent)
      let s := { s with kernel := answer.1 }
      if 0 ≤ answer.2 then
        s.update pipe (fun p => { p with sent := p.sent + answer.2.toNat })
          (.sent pipe ((p.input.drop p.sent).take answer.2.toNat))
      else if answer.2 = -eagain ∨ answer.2 = -eintr then s
      else s.fail pipe answer.2
    else s

def receive (sockets : TreeSockets κ) (limits : DrainLimits) (s : Drain κ) (pipe : ℕ) :
    Drain κ × Bool :=
  match s.pipes[pipe]? with
  | none => (s, false)
  | some p =>
    if p.reading then
      let answer := sockets.recvfrom s.kernel p.fd
      let s := { s with kernel := answer.1 }
      if answer.2.1 = -eagain ∨ answer.2.1 = -eintr then (s, false)
      else if answer.2.1 < 0 then (s.fail pipe answer.2.1, false)
      else if answer.2.1 = 0 then
        (s.update pipe (fun p => { p with reading := false }) (.ended pipe), false)
      else
        let bytes := answer.2.2.take answer.2.1.toNat
        let s := s.update pipe id (.received pipe bytes)
        let s := { s with
          log := s.log ++ [.keep p.index bytes], buffered := s.buffered + answer.2.1.toNat }
        (s, limits.overflows s.buffered)
    else (s, false)

/-- The pipes that `poll` reported events of, one after the other. -/
def serve (sockets : TreeSockets κ) (limits : DrainLimits) :
    Drain κ → List (ℕ × ℕ) → Drain κ × Bool
  | s, [] => (s, false)
  | s, (pipe, revents) :: rest =>
    if revents = 0 then serve sockets limits s rest
    else
      let served := (s.send sockets pipe).receive sockets limits pipe
      if served.2 then (served.1, true) else serve sockets limits served.1 rest

def kill (s : Drain κ) (error : ℤ) : Drain κ × DrainOutcome :=
  ({ s with log := s.log ++ [.kill, .close] }, ⟨some error, s.pipeError⟩)

/-- How long `poll` may wait, for which a finite deadline reads the clock again. -/
def wait (sockets : TreeSockets κ) (limits : DrainLimits) (kernel : κ) : κ × ℚ :=
  match limits.deadline with
  | none => (kernel, -1)
  | some deadline =>
    let clock := sockets.now kernel
    (clock.1, max 0 (deadline - clock.2))

def ask (sockets : TreeSockets κ) (limits : DrainLimits) (s : Drain κ) :
    Drain κ × Option DrainOutcome :=
  let clock := sockets.now s.kernel
  let s := { s with kernel := clock.1 }
  if limits.expired clock.2 then ((s.kill uvEtimedout).1, some (s.kill uvEtimedout).2)
  else
    let waits := wait sockets limits s.kernel
    let descriptors := s.asked.filterMap fun pipe => s.pipes[pipe]?.map pollDescriptor
    let ready := sockets.poll waits.1 descriptors waits.2
    let s := { s with kernel := ready.1 }
    if ready.2.1 = -eintr ∨ ready.2.1 = 0 then (s, none)
    else if ready.2.1 < 0 then (s.asked.foldl (fun s pipe => s.fail pipe ready.2.1) s, none)
    else
      let served := s.serve sockets limits (s.asked.mapIdx fun place pipe => (pipe, ready.2.2 place))
      if served.2 then
        ((served.1.kill uvEnobufs).1, some (served.1.kill uvEnobufs).2)
      else (served.1, none)

def round (sockets : TreeSockets κ) (limits : DrainLimits) (s : Drain κ) :
    Drain κ × Option DrainOutcome :=
  let s := (List.range s.pipes.length).foldl (shutdown sockets) s
  if s.asked = [] then
    ({ s with log := s.log ++ [.close] }, some ⟨none, s.pipeError⟩)
  else s.ask sockets limits

def rounds (sockets : TreeSockets κ) (limits : DrainLimits) :
    ℕ → Drain κ → Drain κ × Option DrainOutcome
  | 0, s => (s, none)
  | n + 1, s =>
    match s.round sockets limits with
    | (t, none) => rounds sockets limits n t
    | (t, some outcome) => (t, some outcome)

end Drain

def drainSyncPipes {κ : Type*} (sockets : TreeSockets κ) (limits : DrainLimits) (kernel : κ)
    (pipes : List SyncPipe) (n : ℕ) : Drain κ × Option DrainOutcome :=
  (Drain.new kernel pipes).rounds sockets limits n

end SpawnSync

end Tabnode
