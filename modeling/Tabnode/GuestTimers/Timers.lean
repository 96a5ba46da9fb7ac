import Mathlib.Data.Finset.Basic
import Mathlib.Data.Finset.Range
import Tabnode.Data.Machine

/-!
# Timers that hold a program

A process's timers and the set that is counted for it. A timer is its place in the list
of those that were set, with what the host has of it and, for the record, what was asked
of it and how often its callback ran. The host arms a timer when it is set and ends it
when it is cleared or, unless it repeats, fires; which of its clears end which timers is
the host's (`Host`), the polyfilled ones of a browser and Node's own differing there. The
host fires an armed timer whenever it likes, so a callback is what happens after a
firing, and what it does are actions like any others. The ports, which are counted with
the timers, and the kinds' names are left out.
-/

namespace Tabnode

namespace GuestTimers

/-- What a timer was set by. -/
inductive Kind where
  | timeout
  | interval
  | immediate
  deriving DecidableEq

/-- The clears. -/
inductive Clear where
  | clearTimeout
  | clearInterval
  | clearImmediate
  deriving DecidableEq

def Clear.own : Clear → Kind → Bool
  | .clearImmediate, .immediate => true
  | .clearImmediate, _ => false
  | _, .immediate => false
  | _, _ => true

/-- Which timers each of the host's clears ends: a timer's own does. -/
structure Host where
  ends : Clear → Kind → Bool
  own : ∀ f kind, f.own kind = true → ends f kind = true

/-- What a clear is given: a timer's handle, its primitive id, or something else, a
cancellable object of the engine's among them. -/
inductive Given where
  | handle (i : ℕ)
  | id (i : ℕ)
  | other
  deriving DecidableEq

/-- A timer. `live` is the host's; the rest is the record: the last of `ref` and `unref`,
a clear, a stop of its process, its callbacks, and whether one ran after either. -/
structure Timer where
  kind : Kind
  live : Bool
  referenced : Bool
  cleared : Bool
  stopped : Bool
  runs : ℕ
  late : Bool
  deriving DecidableEq

def Timer.set (kind : Kind) : Timer where
  kind := kind
  live := true
  referenced := true
  cleared := false
  stopped := false
  runs := 0
  late := false

def Timer.armed (t : Timer) : Bool :=
  !t.cleared && !t.stopped && (decide (t.kind = .interval) || decide (t.runs = 0))

/-- The process's timers, and the set of those that are counted. -/
structure Timers where
  timers : List Timer
  held : Finset ℕ
  deriving DecidableEq

def start : Timers where
  timers := []
  held := ∅

def Timers.change (s : Timers) (i : ℕ) (f : Timer → Timer) : Timers :=
  { s with timers := s.timers.modify i f }

/-- The wrappers of `setTimeout`, `setInterval` and `setImmediate`, and `track`. -/
def setTimer (kind : Kind) (s : Timers) : Timers where
  timers := s.timers ++ [.set kind]
  held := insert s.timers.length s.held

def Timer.clear (host : Host) (f : Clear) (t : Timer) : Timer :=
  if host.ends f t.kind then { t with live := false, cleared := true } else t

def clearTimer (host : Host) (f : Clear) (given : Given) (s : Timers) : Timers :=
  match given with
  | .handle i => { s.change i (.clear host f) with held := s.held.erase i }
  | .id i => s.change i (.clear host f)
  | .other => s

/-- `ref`, as `track` wraps it. -/
def ref (i : ℕ) (s : Timers) : Timers :=
  { s.change i fun t => { t with referenced := true } with held := insert i s.held }

/-- `unref`, as `track` wraps it. -/
def unref (i : ℕ) (s : Timers) : Timers :=
  { s.change i fun t => { t with referenced := false } with held := s.held.erase i }

/-- `stopGuestTimers`: the timers that are counted are cleared, and all are stopped. -/
def stopGuestTimers (s : Timers) : Timers where
  timers := s.timers.mapIdx fun i t =>
    { t with live := t.live && !decide (i ∈ s.held), stopped := true }
  held := ∅

def Timer.fire (t : Timer) : Timer :=
  { t with
    live := decide (t.kind = .interval)
    runs := t.runs + 1
    late := t.late || t.cleared || t.stopped }

/-- The host fires a timer: a one-shot is counted no more before its callback runs. -/
def fire (i : ℕ) (t : Timer) (s : Timers) : Timers :=
  { s.change i .fire with held := if t.kind = .interval then s.held else s.held.erase i }

/-- What a program, its host and the end of its process do. -/
inductive Act where
  | set (kind : Kind)
  | clear (f : Clear) (given : Given)
  | ref (i : ℕ)
  | unref (i : ℕ)
  | stop
  | fire (i : ℕ)
  deriving DecidableEq

def Given.index? : Given → Option ℕ
  | .handle i => some i
  | .id i => some i
  | .other => none

/-- The next state. A program has the handles of timers that were set, and the host fires
timers that it has armed. -/
def step (host : Host) (s : Timers) : Act → Option Timers
  | .set kind => some (setTimer kind s)
  | .clear f given =>
      if ∀ i ∈ given.index?, i < s.timers.length then some (clearTimer host f given s) else none
  | .ref i => if i < s.timers.length then some (GuestTimers.ref i s) else none
  | .unref i => if i < s.timers.length then some (GuestTimers.unref i s) else none
  | .stop => some (stopGuestTimers s)
  | .fire i =>
      match s.timers[i]? with
      | some t => if t.live then some (GuestTimers.fire i t s) else none
      | none => none

end GuestTimers

end Tabnode
