import Mathlib.Data.List.Count
import Mathlib.Data.List.Infix
import Mathlib.Data.List.Range
import Tabnode.Data.Machine

/-!
# The guest's execution loop

The realm's tick queue and the brackets around guest code. Programs are not data here:
an action is whatever running code may do next, so a run of the machine is a program
with its host, and the runs are all of them. What the JavaScript stack holds is a list
of frames, the running one first. A frame with a `finally` says by `Frame.leave` what
runs when an exception goes through it.

A tick is the number it was queued as; `queued` and `ran` are the history. A callback
keeps how many ticks had been queued when it was entered. The account of active time
reads none of this and is left out.
-/

namespace Tabnode

namespace GuestLoop

/-- What stands in the realm's microtask queue: the drain of the ticks, the end of a
continuation's turn, or a job of a program's promise. -/
inductive Microtask where
  | drain
  | endContinuation
  | job
  deriving DecidableEq

/-- A call that has not returned: code the realm enters with no bracket, a program's
`try`, a bracket, a callback's bracket, and a drain at a tick of it. A drain keeps how
many ticks it has taken, and the callback it belongs to or none for a microtask's. -/
inductive Frame where
  | entry
  | attempt
  | execution
  | callback (fromTheLoop : Bool) (mark : ℕ)
  | tick (taken : ℕ) (within : Option ℕ)
  deriving DecidableEq

/-- The variables of the loop, what the realm holds, and the history. -/
structure Loop where
  ticks : List ℕ
  tickDrainScheduled : Bool
  drainingTicks : Bool
  callbackDepth : ℕ
  depth : ℕ
  continuation : Bool
  microtasks : List Microtask
  stack : List Frame
  queued : ℕ
  ran : List ℕ

def start : Loop where
  ticks := []
  tickDrainScheduled := false
  drainingTicks := false
  callbackDepth := 0
  depth := 0
  continuation := false
  microtasks := []
  stack := []
  queued := 0
  ran := []

namespace Loop

def enqueue (m : Microtask) (s : Loop) : Loop := { s with microtasks := s.microtasks ++ [m] }

def onStack (stack : List Frame) (s : Loop) : Loop := { s with stack := stack }

def push (f : Frame) (s : Loop) : Loop := s.onStack (f :: s.stack)

def scheduleTickDrain (s : Loop) : Loop :=
  if s.tickDrainScheduled ∨ s.drainingTicks ∨ s.ticks = [] then s
  else enqueue .drain { s with tickDrainScheduled := true }

def queueGuestNextTick (s : Loop) : Loop :=
  scheduleTickDrain { s with ticks := s.ticks ++ [s.queued], queued := s.queued + 1 }

/-- `begin`. -/
def begun (s : Loop) : Loop := { s with depth := s.depth + 1 }

/-- `end`. -/
def ended (s : Loop) : Loop := { s with depth := s.depth - 1 }

/-- The end of a callback: its own `finally` and that of its bracket. -/
def leaveCallback (s : Loop) : Loop := ended { s with callbackDepth := s.callbackDepth - 1 }

/-- The `finally` of `drainGuestNextTicks`. -/
def finishDrain (taken : ℕ) (s : Loop) : Loop :=
  scheduleTickDrain { s with ticks := s.ticks.drop taken, drainingTicks := false }

/-- The end of what called `drainGuestNextTicks`: a callback, or a microtask's bracket. -/
def leaveDrain (within : Option ℕ) (s : Loop) : Loop :=
  match within with
  | some _ => s.leaveCallback
  | none => s.ended

end Loop

open Loop

def Frame.leave : Frame → Loop → Loop
  | .entry, s => s
  | .attempt, s => s
  | .execution, s => s.ended
  | .callback _ _, s => s.leaveCallback
  | .tick taken within, s => (s.finishDrain taken).leaveDrain within

/-- An exception goes through the frames up to a `try`, or to the realm. -/
def unwind : List Frame → Loop → Loop
  | [], s => s
  | .attempt :: rest, s => s.onStack rest
  | f :: rest, s => unwind rest (f.leave (s.onStack rest))

/-- The loop of `drainGuestNextTicks`: the next tick is called, or the drain returns. -/
def drainLoop (taken : ℕ) (within : Option ℕ) (rest : List Frame) (s : Loop) : Loop :=
  match s.ticks[taken]? with
  | some t => { s.onStack (.tick (taken + 1) within :: rest) with ran := s.ran ++ [t] }
  | none => ((s.onStack rest).finishDrain taken).leaveDrain within

/-- `drainGuestNextTicks`, and what its caller does when it returns. -/
def drainGuestNextTicks (within : Option ℕ) (rest : List Frame) (s : Loop) : Loop :=
  if s.drainingTicks then (s.onStack rest).leaveDrain within
  else drainLoop 0 within rest { s with drainingTicks := true }

/-- `withGuestCallback`, up to the call of its function. -/
def withGuestCallback (s : Loop) : Loop :=
  let fromTheLoop := decide (s.depth = 0 ∧ s.continuation = false ∧ s.ticks = [])
  { s.begun with callbackDepth := s.callbackDepth + 1 }.push (.callback fromTheLoop s.queued)

/-- `withGuestExecution`, up to the call of its function. -/
def withGuestExecution (s : Loop) : Loop := s.begun.push .execution

def resumeGuestTurn (s : Loop) : Loop :=
  if s.continuation then s else enqueue .endContinuation { s with continuation := true }

def returned (s : Loop) : Loop :=
  match s.stack with
  | [] => s
  | .callback fromTheLoop mark :: rest =>
      if fromTheLoop ∧ s.callbackDepth = 1 then drainGuestNextTicks (some mark) rest s
      else (s.onStack rest).leaveCallback
  | .tick taken within :: rest => drainLoop taken within rest s
  | f :: rest => f.leave (s.onStack rest)

def runMicrotask : Microtask → Loop → Loop
  | .drain, s => drainGuestNextTicks none [] { s with tickDrainScheduled := false }.begun
  | .endContinuation, s => { s with continuation := false }
  | .job, s => s.push .entry

/-- What may happen next: the realm enters code, or runs a microtask; running code
queues a tick, is called back, is bracketed, tries, resumes a continuation's turn,
settles a promise, returns or throws. -/
inductive Act where
  | enter
  | microtask
  | queue
  | callback
  | execution
  | attempt
  | resume
  | job
  | ret
  | throw
  deriving DecidableEq

/-- The next state. The realm acts when nothing is running, and enters other code when
no microtask is waiting. -/
def step (s : Loop) : Act → Option Loop
  | .enter => if s.stack = [] ∧ s.microtasks = [] then some (s.push .entry) else none
  | .microtask =>
      match s.stack, s.microtasks with
      | [], m :: rest => some (runMicrotask m { s with microtasks := rest })
      | _, _ => none
  | .queue => if s.stack = [] then none else some s.queueGuestNextTick
  | .callback => if s.stack = [] then none else some (withGuestCallback s)
  | .execution => if s.stack = [] then none else some (withGuestExecution s)
  | .attempt => if s.stack = [] then none else some (s.push .attempt)
  | .resume => if s.stack = [] then none else some (resumeGuestTurn s)
  | .job => if s.stack = [] then none else some (s.enqueue .job)
  | .ret => if s.stack = [] then none else some (returned s)
  | .throw => if s.stack = [] then none else some (unwind s.stack s)

def Reachable (s : Loop) : Prop := ∃ as, Machine.run step start as = some s

def taken : List Frame → ℕ
  | [] => 0
  | .tick n _ :: _ => n
  | _ :: rest => taken rest

def Loop.pending (s : Loop) : List ℕ := s.ticks.drop (taken s.stack)

end GuestLoop

end Tabnode
