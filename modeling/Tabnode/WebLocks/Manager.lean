import Tabnode.Data.Machine
import Tabnode.VirtualFS.Path

/-!
# The lock manager of a process

Locks by name, exclusive or shared. A request waits until its lock is granted; one with
`steal` takes the lock from its holders, and one with `ifAvailable` does not wait. The
callback of a granted request is called in a turn of its own and its outcome settles the
request, and the end of the callback releases the lock. A signal that aborts calls the
listeners that waiting requests have put on it, in their order.

Requests are numbered in the order asked. Beside the manager's own lists are the
callbacks not yet at their end and the listeners of the signals, and, in the order they
came, the requests granted from the list of those waiting, the callbacks called and the
requests settled.
-/

namespace Tabnode

namespace WebLocks

/-- How a lock is held. -/
inductive Mode where
  | exclusive
  | shared
  deriving DecidableEq

/-- The `mode` option as it is given. -/
inductive ModeOption where
  | absent
  | mode (mode : Mode)
  | other (text : String)
  deriving DecidableEq

/-- What a request asks. -/
structure Ask where
  name : List Char
  callback : Bool
  mode : ModeOption
  ifAvailable : Bool
  steal : Bool
  signal : Option ℕ
  deriving DecidableEq

/-- Why a request is rejected: with a value of its callback or of its signal, or with an
error of the manager. -/
inductive Reason (V : Type*) where
  | value (v : V)
  | error (name message : String)
  deriving DecidableEq

/-- How a request settles. -/
inductive Outcome (V : Type*) where
  | resolved (v : V)
  | rejected (reason : Reason V)
  deriving DecidableEq

/-- A lock that is held, for a request. -/
structure Held where
  id : ℕ
  name : List Char
  mode : Mode
  deriving DecidableEq

/-- A request that waits. -/
structure Waiting where
  id : ℕ
  name : List Char
  mode : Mode
  signal : Option ℕ
  deriving DecidableEq

/-- The lock a callback is called with. -/
structure Lock where
  name : List Char
  mode : Mode
  deriving DecidableEq

/-- A callback that is to be called, or has been and is not at its end: the request it is
for, the lock or `null`, and whether its request has been settled without it. -/
structure Callback where
  id : ℕ
  lock : Option Lock
  signal : Option ℕ
  began : Bool
  settled : Bool
  deriving DecidableEq

def Callback.begin (id : ℕ) (c : Callback) : Callback :=
  if c.id = id then { c with began := true } else c

def Callback.settle (id : ℕ) (c : Callback) : Callback :=
  if c.id = id then { c with settled := true } else c

/-- The manager and what is under way around it. -/
structure Manager (V : Type*) where
  held : List Held
  waiting : List Waiting
  listeners : List (ℕ × ℕ)
  callbacks : List Callback
  aborted : List (ℕ × V)
  asked : ℕ
  granted : List Waiting
  called : List ℕ
  settlements : List (ℕ × Outcome V)
  deriving DecidableEq

variable {V : Type*}

def Manager.new : Manager V := ⟨[], [], [], [], [], 0, [], [], []⟩

def stolenError : Reason V := .error "AbortError" "The lock was stolen by another request"

namespace Manager

variable (m : Manager V)

def grantable (name : List Char) (mode : Mode) : Bool :=
  let held := m.held.filter fun lock => lock.name = name
  held.isEmpty || (mode = .shared && held.all fun lock => lock.mode = .shared)

def settle (id : ℕ) (outcome : Outcome V) : Manager V :=
  { m with settlements := m.settlements ++ [(id, outcome)] }

/-- `run`: the lock is held, and the callback has a turn coming. -/
def run (id : ℕ) (name : List Char) (mode : Mode) (signal : Option ℕ) : Manager V :=
  { m with
    held := m.held ++ [⟨id, name, mode⟩]
    callbacks := m.callbacks ++ [⟨id, some ⟨name, mode⟩, signal, false, false⟩] }

/-- A waiting request leaves the list and is granted, its listener taken off its signal. -/
def grant (r : Waiting) : Manager V :=
  Manager.run
    { m with
      waiting := m.waiting.erase r
      listeners := m.listeners.filter fun l => l.2 ≠ r.id
      granted := m.granted ++ [r] }
    r.id r.name r.mode r.signal

/-- The loop of `advance` over the requests left, with the names that are blocked. -/
def advanceLoop (m : Manager V) (blocked : List (List Char)) : List Waiting → Manager V
  | [] => m
  | r :: left =>
    if r.name ∈ blocked || !m.grantable r.name r.mode then
      advanceLoop m (r.name :: blocked) left
    else
      advanceLoop (m.grant r) (if r.mode = .exclusive then r.name :: blocked else blocked) left

/-- In the order asked, the waiting requests that can be are granted: a request waits
behind an earlier one of its name. -/
def advance : Manager V := m.advanceLoop [] m.waiting

def refusal (ask : Ask) : Option (Reason V) :=
  if !ask.callback then
    some (.error "TypeError" "The \"callback\" argument must be of type function.")
  else
    match ask.mode with
    | .other text =>
      some (.error "TypeError" ("The provided value '" ++ text ++
        "' is not a valid enum value of type LockMode."))
    | mode =>
      if ask.name.head? = some '-' then
        some (.error "NotSupportedError" "Lock name may not start with hyphen")
      else if ask.steal && ask.ifAvailable then
        some (.error "NotSupportedError" "ifAvailable and steal are mutually exclusive")
      else if ask.steal && mode = .mode .shared then
        some (.error "NotSupportedError" "mode: 'shared' and steal are mutually exclusive")
      else if ask.signal.isSome && (ask.steal || ask.ifAvailable) then
        some (.error "NotSupportedError"
          "ifAvailable and steal are mutually exclusive with signal")
      else
        (ask.signal.bind fun signal => m.aborted.find? fun a => a.1 = signal).map fun a =>
          .value a.2

def modeOf : ModeOption → Mode
  | .mode mode => mode
  | _ => .exclusive

def stolen (id : ℕ) : Manager V :=
  if m.callbacks.any fun c => c.id = id && !c.settled then
    Manager.settle { m with callbacks := m.callbacks.map (Callback.settle id) } id
      (.rejected stolenError)
  else m

def stealAll (m : Manager V) : List Held → Manager V
  | [] => m
  | lock :: locks => stealAll (Manager.stolen { m with held := m.held.erase lock } lock.id) locks

def request (ask : Ask) : Manager V :=
  let id := m.asked
  let mode := modeOf ask.mode
  let asked := { m with asked := m.asked + 1 }
  match m.refusal ask with
  | some reason => asked.settle id (.rejected reason)
  | none =>
    if ask.steal then
      (asked.stealAll (m.held.filter fun lock => lock.name = ask.name)).run id ask.name mode
        ask.signal
    else if ask.ifAvailable then
      if m.grantable ask.name mode && !m.waiting.any fun entry => entry.name = ask.name then
        asked.run id ask.name mode ask.signal
      else { asked with callbacks := m.callbacks ++ [⟨id, none, ask.signal, false, false⟩] }
    else
      Manager.advance
        { asked with
          listeners := m.listeners ++ (ask.signal.map fun signal => (signal, id)).toList
          waiting := m.waiting ++ [⟨id, ask.name, mode, ask.signal⟩] }

def begins (id : ℕ) : Option (Manager V) :=
  if m.callbacks.any fun c => c.id = id && !c.began then
    some { m with
      callbacks := m.callbacks.map (Callback.begin id)
      called := m.called ++ [id] }
  else none

/-- `release`: the request's lock is let go, where it has it. -/
def release (id : ℕ) : Manager V :=
  Manager.advance { m with held := m.held.eraseP fun lock => lock.id = id }

def finishes (id : ℕ) (outcome : Outcome V) : Option (Manager V) :=
  (m.callbacks.find? fun c => c.id = id && c.began).map fun c =>
    let released := if c.lock.isSome then m.release id else m
    let ended := { released with callbacks := released.callbacks.filter fun c => c.id ≠ id }
    if c.settled then ended else ended.settle id outcome

/-- `cancel`: a request that waits is rejected with its signal's reason. -/
def cancel (id : ℕ) (reason : V) : Manager V :=
  match m.waiting.find? fun entry => entry.id = id with
  | none => m
  | some entry =>
    (Manager.settle { m with waiting := m.waiting.erase entry } id
      (.rejected (.value reason))).advance

/-- The listeners of a signal are called, those that are still on it when their turn comes. -/
def fire (signal : ℕ) (reason : V) (m : Manager V) : List ℕ → Manager V
  | [] => m
  | id :: ids =>
    if (signal, id) ∈ m.listeners then
      fire signal reason
        (Manager.cancel { m with listeners := m.listeners.filter fun l => l ≠ (signal, id) } id
          reason)
        ids
    else fire signal reason m ids

def aborts (signal : ℕ) (reason : V) : Manager V :=
  if m.aborted.any fun a => a.1 = signal then m
  else
    Manager.fire signal reason { m with aborted := m.aborted ++ [(signal, reason)] }
      ((m.listeners.filter fun l => l.1 = signal).map Prod.snd)

end Manager

/-- What can happen to a manager. -/
inductive Action (V : Type*) where
  | request (ask : Ask)
  | begins (id : ℕ)
  | finishes (id : ℕ) (outcome : Outcome V)
  | aborts (signal : ℕ) (reason : V)

def step (m : Manager V) : Action V → Option (Manager V)
  | .request ask => some (m.request ask)
  | .begins id => m.begins id
  | .finishes id outcome => m.finishes id outcome
  | .aborts signal reason => some (m.aborts signal reason)

end WebLocks

end Tabnode
