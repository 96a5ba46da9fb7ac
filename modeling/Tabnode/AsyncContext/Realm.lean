import Mathlib.Data.List.Basic
import Mathlib.Logic.Function.Basic

/-!
# The frame a continuation runs in

The engine keeps the stores of all storages in one current frame, a variable of the
realm. `run` and its like put the caller's frame back by the stack; a compiled async
function takes the frame it is entered in and puts it back where it resumes, through
`resumeFrame`, which has the realm's turn end with the root frame again.

`Realm.perform` is one step of a program's code or of the host: what a guest calls, the
points at which its async functions stop and go on, and the host's choice of what to run
next. A frame is a map that is never changed once it is made, so frames are compared by
which of them they are.
-/

namespace Tabnode

namespace AsyncContext

/-- A frame: the stores of the storages that have one, each possibly `undefined`. -/
abbrev ContextFrame (Storage Value : Type) := Storage → Option (Option Value)

/-- `ROOT_FRAME`. -/
def rootFrame {Storage Value : Type} : ContextFrame Storage Value := fun _ => none

/-- `next.set(this, store)` on a copy of a frame. -/
def ContextFrame.with {Storage Value : Type} [DecidableEq Storage]
    (frame : ContextFrame Storage Value) (storage : Storage) (store : Option Value) :
    ContextFrame Storage Value :=
  Function.update frame storage (some store)

/-- `next.delete(this)` on a copy of a frame. -/
def ContextFrame.without {Storage Value : Type} [DecidableEq Storage]
    (frame : ContextFrame Storage Value) (storage : Storage) : ContextFrame Storage Value :=
  Function.update frame storage none

def ContextFrame.store {Storage Value : Type} (frame : ContextFrame Storage Value)
    (defaultValue : Storage → Option Value) (storage : Storage) : Option Value :=
  (frame storage).getD (defaultValue storage)

/-- What a program's code and the host do, one at a time. -/
inductive Action (Storage Value : Type) where
  /-- `storage.run(store, callback)`: the callback begins. -/
  | run (storage : Storage) (store : Option Value)
  /-- `storage.exit(callback)`: the callback begins. -/
  | exit (storage : Storage)
  | enterWith (storage : Storage) (store : Option Value)
  | disable (storage : Storage)
  /-- `storage.withScope(store)`, whose scope is the next one. -/
  | withScope (storage : Storage) (store : Option Value)
  /-- `dispose` of a scope. -/
  | dispose (scope : ℕ)
  /-- `AsyncLocalStorage.snapshot()` or `bind(callback)`. -/
  | snapshot
  /-- A snapshot, or a bound callback, is called: its callback begins. -/
  | call (snapshot : ℕ)
  /-- A timer, an immediate, a microtask or a promise callback is given. -/
  | schedule
  /-- An async function begins, with a block for its body or an expression. -/
  | async (block : Bool)
  /-- The async function that runs stops at an `await`. -/
  | await
  /-- The async function that runs enters a `catch`, a `finally` or the body of a
  `for await`, or has come out of one. -/
  | restore
  /-- A callback, an async function or the code of a turn ends, by a return or a throw. -/
  | leave
  /-- The host enters code that was not scheduled: an event, a main module. -/
  | startTurn
  /-- The host runs what was scheduled, which an interval leaves to run again. -/
  | fire (continuation : ℕ) (again : Bool)
  /-- The host resumes an async function that has stopped. -/
  | resume (continuation : ℕ)
  /-- An `await` rejects in a function that catches nothing. -/
  | reject (continuation : ℕ)
  /-- The task that ends a continuation's turn runs. -/
  | endContinuation

/-! ## The engine -/

/-- What is on the call stack, with what each puts back: code that was not scheduled;
a scheduled callback; a callback of `run` and its like; an async function, with its
`ASYNC_FRAME` where its body is a block. -/
inductive Call where
  | turn
  | carried (previous : ℕ)
  | within (previous : ℕ)
  | async (frame : Option ℕ)
  deriving DecidableEq

/-- What waits for the host: a callback with the frame it was given in, or an async
function, with its `ASYNC_FRAME` or the frame taken at the `await`. -/
inductive Continuation where
  | carried (captured : ℕ)
  | awaiting (frame : Option ℕ) (taken : ℕ)
  deriving DecidableEq

/-- A scope of `withScope`. -/
structure Scope (Storage Value : Type) where
  storage : Storage
  previous : Option Value
  disposed : Bool := false

/-- The frames made so far, by their numbers. -/
structure Frames (Storage Value : Type) where
  stores : ℕ → ContextFrame Storage Value
  made : ℕ

def Frames.make {Storage Value : Type} (frames : Frames Storage Value)
    (frame : ContextFrame Storage Value) : Frames Storage Value where
  stores := Function.update frames.stores frames.made frame
  made := frames.made + 1

/-- The realm's context: its frames; `currentFrame`, `resetQueued` and `continuation`; the
code that runs, and what waits. -/
structure Realm (Storage Value : Type) where
  frames : Frames Storage Value
  currentFrame : ℕ
  resetQueued : Bool
  continuation : Bool
  stack : List Call
  pending : List Continuation
  snapshots : List ℕ
  scopes : List (Scope Storage Value)

variable {Storage Value : Type}

def Realm.new : Realm Storage Value where
  frames := { stores := fun _ => rootFrame, made := 1 }
  currentFrame := 0
  resetQueued := false
  continuation := false
  stack := []
  pending := []
  snapshots := []
  scopes := []

def Realm.current (s : Realm Storage Value) : ContextFrame Storage Value :=
  s.frames.stores s.currentFrame

def Realm.getStore (s : Realm Storage Value) (defaultValue : Storage → Option Value)
    (storage : Storage) : Option Value :=
  s.current.store defaultValue storage

def Realm.enter (s : Realm Storage Value) (frame : ContextFrame Storage Value) :
    Realm Storage Value :=
  { s with frames := s.frames.make frame, currentFrame := s.frames.made }

/-- `withFrame`, up to the call of its callback, in a frame that is made for it. -/
def Realm.withNewFrame (s : Realm Storage Value) (frame : ContextFrame Storage Value) :
    Realm Storage Value :=
  { s.enter frame with stack := .within s.currentFrame :: s.stack }

def Realm.resumeFrame (s : Realm Storage Value) (frame : ℕ) : Realm Storage Value :=
  -- `resumeGuestTurn`: one task ends the turn, whatever is resumed in it
  let s := { s with continuation := true }
  if frame = s.currentFrame then s else { s with currentFrame := frame, resetQueued := true }

/-- `endContinuation`, with `resetFrame`. -/
def Realm.endContinuation (s : Realm Storage Value) : Realm Storage Value :=
  let s := { s with continuation := false }
  if s.resetQueued then { s with resetQueued := false, currentFrame := 0 } else s

def Realm.withScope [DecidableEq Storage] (defaultValue : Storage → Option Value)
    (s : Realm Storage Value) (storage : Storage) (store : Option Value) : Realm Storage Value :=
  { s.enter (s.current.with storage store) with
    scopes := s.scopes ++ [{ storage := storage, previous := s.getStore defaultValue storage }] }

/-- `scope.dispose`. -/
def Realm.dispose [DecidableEq Storage] (s : Realm Storage Value) (index : ℕ)
    (scope : Scope Storage Value) : Realm Storage Value :=
  if scope.disposed then s
  else
    { s.enter (s.current.with scope.storage scope.previous) with
      scopes := s.scopes.set index { scope with disposed := true } }

def Realm.leave (s : Realm Storage Value) : Option (Realm Storage Value) :=
  match s.stack with
  | [] => none
  | .within previous :: stack | .carried previous :: stack =>
      some { s with currentFrame := previous, stack := stack }
  | .turn :: stack | .async _ :: stack => some { s with stack := stack }

def Realm.guest [DecidableEq Storage] (defaultValue : Storage → Option Value)
    (s : Realm Storage Value) : Action Storage Value → Option (Realm Storage Value)
  | .run storage store => some (s.withNewFrame (s.current.with storage store))
  | .exit storage => some (s.withNewFrame (s.current.with storage none))
  | .enterWith storage store => some (s.enter (s.current.with storage store))
  | .disable storage =>
      if (s.current storage).isSome then some (s.enter (s.current.without storage)) else some s
  | .withScope storage store => some (s.withScope defaultValue storage store)
  | .dispose index => s.scopes[index]?.map (s.dispose index)
  | .snapshot => some { s with snapshots := s.snapshots ++ [s.currentFrame] }
  | .call index => s.snapshots[index]?.map fun captured =>
      { s with currentFrame := captured, stack := .within s.currentFrame :: s.stack }
  | .schedule => some { s with pending := s.pending ++ [.carried s.currentFrame] }
  | .async block =>
      some { s with stack := .async (if block then some s.currentFrame else none) :: s.stack }
  | .await =>
      match s.stack with
      | .async frame :: stack =>
          some { s with stack := stack, pending := s.pending ++ [.awaiting frame s.currentFrame] }
      | _ => none
  | .restore =>
      match s.stack with
      | .async (some frame) :: _ => some (s.resumeFrame frame)
      | _ => none
  | .leave => s.leave
  | _ => none

/-- A step of the host, which runs no code while other code is running. A turn begins
when every microtask has run, the one that ends the last turn among them. -/
def Realm.host (s : Realm Storage Value) : Action Storage Value → Option (Realm Storage Value)
  | .startTurn => if s.continuation then none else some { s with stack := [.turn] }
  | .fire index again =>
      match s.pending[index]? with
      | some (.carried captured) =>
          some { s with
            currentFrame := captured
            stack := [.carried s.currentFrame]
            pending := if again then s.pending else s.pending.eraseIdx index }
      | _ => none
  | .resume index =>
      match s.pending[index]? with
      | some (.awaiting frame taken) =>
          some { s.resumeFrame (frame.getD taken) with
            stack := [.async frame], pending := s.pending.eraseIdx index }
      | _ => none
  | .reject index =>
      match s.pending[index]? with
      | some (.awaiting _ _) => some { s with pending := s.pending.eraseIdx index }
      | _ => none
  | .endContinuation => if s.continuation then some s.endContinuation else none
  | _ => none

def Realm.perform [DecidableEq Storage] (defaultValue : Storage → Option Value)
    (s : Realm Storage Value) (a : Action Storage Value) : Option (Realm Storage Value) :=
  if s.stack = [] then s.host a else s.guest defaultValue a

def Realm.performAll [DecidableEq Storage] (defaultValue : Storage → Option Value) :
    Realm Storage Value → List (Action Storage Value) → Option (Realm Storage Value)
  | s, [] => some s
  | s, a :: actions => (s.perform defaultValue a).bind fun t => t.performAll defaultValue actions

end AsyncContext

end Tabnode

/-!
## The frame each continuation should run in

`Rule` is what Node's rule gives for the same steps, with no frame kept but the one each
callback and function needs: a scheduled callback runs in the frame current when it was
scheduled, an async function goes on in the frame it stopped in, a callback of `run` and
its like leaves its caller the caller's frame, and a turn begins in the root frame.
-/

namespace Tabnode

namespace AsyncContext

variable {Storage Value : Type}

/-- What is on the call stack: a callback of `run` and its like with its caller's frame,
an async function with the frame it was entered in where its body is a block. -/
inductive RuleCall (Storage Value : Type) where
  | turn
  | carried
  | within (caller : ContextFrame Storage Value)
  | async (entered : Option (ContextFrame Storage Value))

/-- What waits for the host: a callback with the frame it was scheduled in, or an async
function with the frame it stopped in. -/
inductive RuleContinuation (Storage Value : Type) where
  | carried (scheduled : ContextFrame Storage Value)
  | awaiting (entered : Option (ContextFrame Storage Value)) (stopped : ContextFrame Storage Value)

/-- The frames of the rule. -/
structure Rule (Storage Value : Type) where
  current : ContextFrame Storage Value
  stack : List (RuleCall Storage Value)
  pending : List (RuleContinuation Storage Value)
  snapshots : List (ContextFrame Storage Value)
  scopes : List (Scope Storage Value)

def Rule.new : Rule Storage Value where
  current := rootFrame
  stack := []
  pending := []
  snapshots := []
  scopes := []

def Rule.getStore (n : Rule Storage Value) (defaultValue : Storage → Option Value)
    (storage : Storage) : Option Value :=
  n.current.store defaultValue storage

def Rule.within (n : Rule Storage Value) (frame : ContextFrame Storage Value) :
    Rule Storage Value :=
  { n with current := frame, stack := .within n.current :: n.stack }

def Rule.leave (n : Rule Storage Value) : Option (Rule Storage Value) :=
  match n.stack with
  | [] => none
  | .within caller :: stack => some { n with current := caller, stack := stack }
  | .turn :: stack | .carried :: stack | .async _ :: stack => some { n with stack := stack }

def Rule.guest [DecidableEq Storage] (defaultValue : Storage → Option Value)
    (n : Rule Storage Value) : Action Storage Value → Option (Rule Storage Value)
  | .run storage store => some (n.within (n.current.with storage store))
  | .exit storage => some (n.within (n.current.with storage none))
  | .enterWith storage store => some { n with current := n.current.with storage store }
  | .disable storage => some { n with current := n.current.without storage }
  | .withScope storage store =>
      some { n with
        current := n.current.with storage store
        scopes := n.scopes ++
          [{ storage := storage, previous := n.getStore defaultValue storage }] }
  | .dispose index =>
      n.scopes[index]?.map fun scope =>
        if scope.disposed then n
        else
          { n with
            current := n.current.with scope.storage scope.previous
            scopes := n.scopes.set index { scope with disposed := true } }
  | .snapshot => some { n with snapshots := n.snapshots ++ [n.current] }
  | .call index => n.snapshots[index]?.map n.within
  | .schedule => some { n with pending := n.pending ++ [.carried n.current] }
  | .async block =>
      some { n with stack := .async (if block then some n.current else none) :: n.stack }
  | .await =>
      match n.stack with
      | .async entered :: stack =>
          some { n with stack := stack, pending := n.pending ++ [.awaiting entered n.current] }
      | _ => none
  | .restore =>
      match n.stack with
      | .async (some _) :: _ => some n
      | _ => none
  | .leave => n.leave
  | _ => none

def Rule.host (n : Rule Storage Value) : Action Storage Value → Option (Rule Storage Value)
  | .startTurn => some { n with current := rootFrame, stack := [.turn] }
  | .fire index again =>
      match n.pending[index]? with
      | some (.carried scheduled) =>
          some { n with
            current := scheduled
            stack := [.carried]
            pending := if again then n.pending else n.pending.eraseIdx index }
      | _ => none
  | .resume index =>
      match n.pending[index]? with
      | some (.awaiting entered stopped) =>
          some { n with
            current := stopped, stack := [.async entered], pending := n.pending.eraseIdx index }
      | _ => none
  | .reject index =>
      match n.pending[index]? with
      | some (.awaiting _ _) => some { n with pending := n.pending.eraseIdx index }
      | _ => none
  | .endContinuation => some n
  | _ => none

def Rule.perform [DecidableEq Storage] (defaultValue : Storage → Option Value)
    (n : Rule Storage Value) (a : Action Storage Value) : Option (Rule Storage Value) :=
  match n.stack with
  | [] => n.host a
  | _ :: _ => n.guest defaultValue a

def Rule.performAll [DecidableEq Storage] (defaultValue : Storage → Option Value) :
    Rule Storage Value → List (Action Storage Value) → Option (Rule Storage Value)
  | n, [] => some n
  | n, a :: actions => (n.perform defaultValue a).bind fun m => m.performAll defaultValue actions

/-- What the engine relies on for a step of the code or of the host. An async function
with a block body goes on, after an `await` and at a `catch`, a `finally` or a
`for await`, in the frame it was entered in. Code under which nothing runs that is not a
scheduled callback leaves the root frame, or a reset is queued. -/
def Suits (s : Realm Storage Value) (n : Rule Storage Value) : Action Storage Value → Prop
  | .restore => ∀ entered stack, n.stack = .async (some entered) :: stack → n.current = entered
  | .resume index => ∀ entered stopped,
      n.pending[index]? = some (.awaiting (some entered) stopped) → stopped = entered
  | .leave => n.stack.length = 1 → n.stack ≠ [.carried] →
      n.current = rootFrame ∨ s.resetQueued = true
  | .await => n.stack.length = 1 → n.current = rootFrame ∨ s.resetQueued = true
  | _ => True

def AllSuit [DecidableEq Storage] (defaultValue : Storage → Option Value) :
    Realm Storage Value → Rule Storage Value → List (Action Storage Value) → Prop
  | _, _, [] => True
  | s, n, a :: actions => Suits s n a ∧ ∀ t m, s.perform defaultValue a = some t →
      n.perform defaultValue a = some m → AllSuit defaultValue t m actions

/-- What `getStore` promises of a run: the rule makes the same steps, and the code that
runs after them is answered what the rule gives, whatever storage it asks. -/
def KeepsRule [DecidableEq Storage] (defaultValue : Storage → Option Value)
    (actions : List (Action Storage Value)) : Prop :=
  ∀ s, Realm.new.performAll defaultValue actions = some s →
    ∃ n, Rule.new.performAll defaultValue actions = some n ∧
      (s.stack ≠ [] → ∀ storage,
        s.getStore defaultValue storage = n.getStore defaultValue storage)

end AsyncContext

end Tabnode
