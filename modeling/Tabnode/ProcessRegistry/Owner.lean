import Mathlib.Data.Finset.Basic
import Tabnode.Data.JsNumber
import Tabnode.Data.OrderedMap

/-!
# The registry of a realm's processes

An owner keeps the numbers its scopes hold, the table of live processes and, for each of
them, the scope that answers its signals; a scope keeps the numbers it was given, those
the embedder gave it among them, and the runs it has published. The code of others runs
inside three calls: the installed allocator inside `allocate`, a scope's signal handler
inside `signal` and, member by member, inside `signalGroup`. Such a call under way is a
frame on a stack, and while one is there the code that runs may call any scope again.

`exit` does nothing and `reap` answers what it is given, so neither is here.
-/

namespace Tabnode

namespace ProcessRegistry

open OrderedMap

/-- What a process is known by, and what its starter says of it. -/
structure ProcessIdentity where
  pid : JsNumber
  ppid : JsNumber
  pgid : Option JsNumber := none
  argv : Option (List String) := none
  cwd : Option String := none
  env : Option (List String) := none
  startedAt : Option JsNumber := none
  deriving DecidableEq

def describedIdentity (identity : ProcessIdentity) : ProcessIdentity :=
  { identity with
    argv := identity.argv.filter fun argv => argv.length ≤ 4096
    cwd := identity.cwd.filter fun cwd => cwd.startsWith "/"
    env := identity.env.filter fun env =>
      env.length ≤ 65536 && env.all fun entry => entry.contains '='
    startedAt := identity.startedAt.filter JsNumber.isFinite }

/-- A published identity. Each publication makes an object of its own, told from the
others by its number. -/
structure Registration where
  number : ℕ
  identity : ProcessIdentity
  deriving DecidableEq

/-- What a call of the registry throws. -/
inductive Failure where
  | scopeClosed
  | spaceExhausted
  | invalidIdentifier
  | identifierHeld
  | groupChanged
  | identityNotOwned
  | invalidParent
  | parentNotOwned
  | invalidGroup
  | killInvalid
  deriving DecidableEq

def Failure.message : Failure → String
  | scopeClosed => "Process registry scope is closed."
  | spaceExhausted => "Process identifier space exhausted."
  | invalidIdentifier => "Invalid process identifier."
  | identifierHeld => "Process identifier is already held."
  | groupChanged => "Process group identity cannot change at publication."
  | identityNotOwned => "Process identity is not owned by this run."
  | invalidParent => "Invalid parent process identifier."
  | parentNotOwned => "Parent process is not owned by this realm."
  | invalidGroup => "Invalid or unowned process group identifier."
  | killInvalid => "kill EINVAL"

/-- How a call ends: with an answer, with an error, or not yet, since the code of others
runs first. -/
inductive Reply where
  | done
  | scope (k : ℕ)
  | pid (pid : JsNumber)
  | found (identity : Option ProcessIdentity)
  | flag (value : Bool)
  | threw (failure : Failure)
  | pending
  deriving DecidableEq

/-- A scope: the numbers allocated to it, those of them the embedder gave, its published
runs, whether it is closed, and whether it answers signals. -/
structure Scope (Token : Type*) where
  allocated : Finset JsNumber
  claimed : Finset JsNumber
  runs : List (Token × Registration)
  disposed : Bool
  handler : Bool

def Scope.new {Token : Type*} : Scope Token := ⟨∅, ∅, [], false, false⟩

/-- A call in which the code of others runs: the allocator for a scope, a signal's
handler, or the handler for one member of a group, with the members still to come and
whether any took the signal. -/
inductive Frame where
  | allocating (k : ℕ)
  | signalling
  | group (left : List Registration) (delivered : Bool)

/-- The owner's tables, its scopes, and the calls under way, innermost first. -/
structure Owner (Token : Type*) where
  nextPid : ℕ
  allocator : Bool
  held : Finset JsNumber
  live : List (JsNumber × Registration)
  receivers : List (JsNumber × ℕ)
  scopes : List (Scope Token)
  published : ℕ
  frames : List Frame

/-- `createProcessRegistryOwner`, its first number drawn at random. -/
def Owner.new {Token : Type*} (random : ℕ) : Owner Token where
  nextPid := 1000 + random
  allocator := false
  held := ∅
  live := []
  receivers := []
  scopes := []
  published := 0
  frames := []

def maxPid : ℕ := 0x7fffffff

def isPid (pid : JsNumber) : Bool :=
  pid.toInt?.any fun n : ℤ => 2 ≤ n && n ≤ maxPid

def isParentPid (pid : JsNumber) : Bool :=
  pid.toInt?.any fun n : ℤ => 0 ≤ n && n ≤ maxPid

def isGroupPid (pid : JsNumber) : Bool :=
  pid.toInt?.any fun n : ℤ => 1 ≤ n && n ≤ maxPid

namespace Owner

variable {Token : Type*} (o : Owner Token)

def modifyScope (k : ℕ) (f : Scope Token → Scope Token) : Owner Token :=
  { o with scopes := o.scopes.modify k f }

/-- `held.has(pid) || live.has(pid)`. -/
def inUse (pid : JsNumber) : Bool :=
  pid ∈ o.held || (find pid o.live).isSome

def nextFree (n : ℕ) : Option ℕ :=
  if n > maxPid then none
  else if o.inUse (.ofInt n) then nextFree (n + 1)
  else some n
termination_by maxPid + 1 - n

def take (k : ℕ) (pid : JsNumber) : Owner Token :=
  { o.modifyScope k fun s => { s with allocated := insert pid s.allocated } with
    held := insert pid o.held }

def mark (k : ℕ) (pid : JsNumber) : Owner Token :=
  o.modifyScope k fun s => { s with claimed := insert pid s.claimed }

def askAllocator (k : ℕ) : Owner Token × Reply :=
  ({ o with frames := .allocating k :: o.frames }, .pending)

/-- `allocate`, the numbers coming from the counter or from the installed allocator. -/
def allocate (k : ℕ) : Owner Token × Reply :=
  if o.allocator then o.askAllocator k
  else
    match o.nextFree o.nextPid with
    | none => ({ o with nextPid := max o.nextPid (maxPid + 1) }, .threw .spaceExhausted)
    | some n =>
      if isPid (.ofInt n) then
        ({ o.take k (.ofInt n) with nextPid := n + 1 }, .pid (.ofInt n))
      else ({ o with nextPid := n + 1 }, .threw .spaceExhausted)

/-- What `allocate` does with the allocator's answer. -/
def allocateAnswered (k : ℕ) (pid : JsNumber) : Owner Token × Reply :=
  if !isPid pid then (o, .threw .spaceExhausted)
  else if o.inUse pid then o.askAllocator k
  else (o.take k pid, .pid pid)

/-- `claim`: a number the embedder gives. -/
def claim (k : ℕ) (pid : JsNumber) : Owner Token × Reply :=
  if !isPid pid then (o, .threw .invalidIdentifier)
  else if o.inUse pid then (o, .threw .identifierHeld)
  else ((o.take k pid).mark k pid, .done)

def enter [DecidableEq Token] (k : ℕ) (token : Token) (entry : Registration) : Owner Token :=
  { o.modifyScope k fun s => { s with runs := OrderedMap.set token entry s.runs } with
    live := OrderedMap.set entry.identity.pid entry o.live
    receivers := OrderedMap.set entry.identity.pid k o.receivers
    published := o.published + 1 }

def leave [DecidableEq Token] (k : ℕ) (token : Token) (pid : JsNumber) : Owner Token :=
  { o.modifyScope k fun s =>
      { s with
        runs := erase token s.runs
        allocated := s.allocated.erase pid
        claimed := s.claimed.erase pid } with
    live := erase pid o.live
    receivers := erase pid o.receivers
    held := o.held.erase pid }

def parentOf (s : Scope Token) (ppid : JsNumber) : Option Registration :=
  (s.runs.map Prod.snd).find? fun parent => parent.identity.pid = ppid

def inheritedGroup (s : Scope Token) (identity : ProcessIdentity) : JsNumber :=
  match parentOf s identity.ppid with
  | some parent => parent.identity.pgid.getD parent.identity.pid
  | none => identity.pid

/-- `publish`: a run and its identity. -/
def publish [DecidableEq Token] (k : ℕ) (s : Scope Token) (token : Token)
    (identity : ProcessIdentity) : Owner Token × Reply :=
  match find token s.runs with
  | some previous =>
    if previous.identity.pid = identity.pid ∧ previous.identity.ppid = identity.ppid then
      if identity.pgid.isSome && identity.pgid ≠ previous.identity.pgid then
        (o, .threw .groupChanged)
      else (o, .done)
    else (o, .threw .identityNotOwned)
  | none =>
    if identity.pid ∉ s.allocated ∨ (find identity.pid o.live).isSome then
      (o, .threw .identityNotOwned)
    else if !isParentPid identity.ppid then (o, .threw .invalidParent)
    else if identity.ppid ≠ .ofInt 0 ∧ parentOf s identity.ppid = none ∧
        identity.pid ∉ s.claimed then
      (o, .threw .parentNotOwned)
    else
      let pgid := identity.pgid.getD (inheritedGroup s identity)
      if !isGroupPid pgid ∨ (pgid ≠ identity.pid ∧ pgid ≠ inheritedGroup s identity) then
        (o, .threw .invalidGroup)
      else
        (o.enter k token ⟨o.published, describedIdentity { identity with pgid := some pgid }⟩,
          .done)

/-- `exec`: a process forked elsewhere, its number claimed and its run published. -/
def exec [DecidableEq Token] (k : ℕ) (token : Token) (identity : ProcessIdentity) :
    Owner Token × Reply :=
  match o.claim k identity.pid with
  | (o', .done) =>
    match o'.scopes[k]? with
    | some s => o'.publish k s token identity
    | none => (o', .done)
  | refused => refused

/-- `forget`: a run that is over. -/
def forget [DecidableEq Token] (k : ℕ) (s : Scope Token) (token : Token) :
    Owner Token × Reply :=
  match find token s.runs with
  | none => (o, .done)
  | some entry => (o.leave k token entry.identity.pid, .done)

def identities : List ProcessIdentity :=
  o.live.map fun e => e.2.identity

/-- `kill` with signal zero: whether there is anyone to send a signal to. -/
def signalZero (s : Scope Token) (pid : JsNumber) (callerPid : Option JsNumber) : Reply :=
  match pid.toInt? with
  | none => .threw .killInvalid
  | some n =>
    if n < -0x80000000 ∨ n > maxPid then .threw .killInvalid
    else if n > 0 then
      .flag ((find pid o.live).isSome ||
        (some pid = callerPid && pid ∈ s.allocated))
    else if n = -1 then
      .flag (o.identities.any fun identity =>
        some identity.pid ≠ callerPid && identity.pid ≠ .ofInt 1)
    else
      let pgid : Option JsNumber :=
        if n = 0 then
          ((find (callerPid.getD (.ofInt 0)) o.live).bind (·.identity.pgid)).or
            callerPid
        else some (.ofInt (-n))
      .flag ((n = 0 && callerPid.any (· ∈ s.allocated)) ||
        o.identities.any fun identity => identity.pgid = pgid)

def handles (pid : JsNumber) : Bool :=
  ((find pid o.receivers).bind (o.scopes[·]?)).any (·.handler)

/-- `signal`. A signal that is not a string is `none`. -/
def signal (s : Scope Token) (pid : JsNumber) (signal : Option String)
    (callerPid : Option JsNumber) : Owner Token × Reply :=
  if signal = some "0" then (o, o.signalZero s pid callerPid)
  else if (find pid o.live).isNone || signal.isNone then (o, .flag false)
  else if o.handles pid then ({ o with frames := .signalling :: o.frames }, .pending)
  else (o, .flag false)

/-- The loop of `signalGroup` over the members left: those that are still the same live
process and have a handler are sent the signal. -/
def deliver (o : Owner Token) : List Registration → Bool → Owner Token × Reply
  | [], delivered => (o, .flag delivered)
  | e :: left, delivered =>
    if find e.identity.pid o.live = some e ∧ o.handles e.identity.pid then
      ({ o with frames := .group left delivered :: o.frames }, .pending)
    else deliver o left delivered

def signalGroup (pgid : JsNumber) (signal : Option String) : Owner Token × Reply :=
  let members := (o.live.map Prod.snd).filter fun e => e.identity.pgid = some pgid
  match signal with
  | none => (o, .flag false)
  | some signal =>
    if signal = "0" then (o, .flag (!members.isEmpty)) else o.deliver members false

/-- `dispose`: the scope's registrations end. -/
def dispose (k : ℕ) (s : Scope Token) : Owner Token × Reply :=
  if s.disposed then (o, .done)
  else
    ({ o.modifyScope k fun _ => ⟨∅, ∅, [], true, false⟩ with
        live := s.runs.foldl (fun live e => erase e.2.identity.pid live) o.live
        receivers :=
          s.runs.foldl (fun receivers e => erase e.2.identity.pid receivers)
            o.receivers
        held := o.held \ s.allocated }, .done)

end Owner

/-- The calls of a scope. -/
inductive Call (Token : Type*) where
  | allocate
  | claim (pid : JsNumber)
  | exec (token : Token) (identity : ProcessIdentity)
  | publish (token : Token) (identity : ProcessIdentity)
  | forget (token : Token)
  | lookup (pid : JsNumber)
  | signal (pid : JsNumber) (signal : Option String) (callerPid : Option JsNumber)
  | lookupGroup (pgid : JsNumber)
  | signalGroup (pgid : JsNumber) (signal : Option String)
  | receiveSignals
  | dispose

/-- What the code outside the registry does: make a scope, install an allocator, call a
scope, or end the innermost call that runs it, with an answer or an error. -/
inductive Action (Token : Type*) where
  | createScope
  | installAllocator
  | call (k : ℕ) (call : Call Token)
  | allocatorReturns (pid : JsNumber)
  | handlerReturns (taken : Bool)
  | throws

variable {Token : Type*} [DecidableEq Token]

def Owner.performOpen (o : Owner Token) (k : ℕ) (s : Scope Token) :
    Call Token → Owner Token × Reply
  | .allocate => o.allocate k
  | .claim pid => o.claim k pid
  | .exec token identity => o.exec k token identity
  | .publish token identity => o.publish k s token identity
  | .forget token => o.forget k s token
  | .lookup pid => (o, .found ((find pid o.live).map (·.identity)))
  | .signal pid signal callerPid => o.signal s pid signal callerPid
  | .lookupGroup pgid => (o, .flag (o.identities.any fun identity => identity.pgid = some pgid))
  | .signalGroup pgid signal => o.signalGroup pgid signal
  | .receiveSignals => (o.modifyScope k fun s => { s with handler := true }, .done)
  | .dispose => o.dispose k s

/-- A call of a scope. All but `dispose` refuse a closed one. -/
def Owner.perform (o : Owner Token) (k : ℕ) (s : Scope Token) (c : Call Token) :
    Owner Token × Reply :=
  match c with
  | .dispose => o.dispose k s
  | c => if s.disposed then (o, .threw .scopeClosed) else o.performOpen k s c

def answer (o : Owner Token) : Action Token → Option (Owner Token × Reply)
  | .createScope => some ({ o with scopes := o.scopes ++ [.new] }, .scope o.scopes.length)
  | .installAllocator => some ({ o with allocator := true }, .done)
  | .call k c => (o.scopes[k]?).map fun s => o.perform k s c
  | .allocatorReturns pid =>
    match o.frames with
    | .allocating k :: frames =>
      (o.scopes[k]?).map fun _ => { o with frames := frames }.allocateAnswered k pid
    | _ => none
  | .handlerReturns taken =>
    match o.frames with
    | .signalling :: frames => some ({ o with frames := frames }, .flag taken)
    | .group left delivered :: frames =>
      some ({ o with frames := frames }.deliver left (delivered || taken))
    | _ => none
  | .throws =>
    match o.frames with
    | _ :: frames => some ({ o with frames := frames }, .done)
    | [] => none

def step (o : Owner Token) (a : Action Token) : Option (Owner Token) :=
  (answer o a).map Prod.fst

end ProcessRegistry

end Tabnode
