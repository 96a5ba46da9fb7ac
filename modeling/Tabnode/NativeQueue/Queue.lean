import Mathlib.Algebra.Order.Ring.Int
import Mathlib.Logic.Function.Basic
import Tabnode.Data.Machine

/-!
# The queue of an addon's threads

Many threads send to one receiver through 32-bit words that they share: two counters that
wrap, a lock, a stop word and 1024 slots of two words each. A step is one access to the shared
words, and the parties step in any order. The accesses of the words that are not atomic are
steps of their own.
-/

namespace Tabnode

namespace NativeQueue

open Function List

abbrev Word := BitVec 32

/-- What is sent: the callback's index in the table, and its data. -/
structure Message where
  callback : Word
  data : Word
  deriving DecidableEq

def slots : ℕ := 1024

/-- `slotOf`, as the number of a slot. -/
def slotOf (counter : Word) : ℕ := (counter &&& 1023).toNat

/-- `((tail - head) | 0) >= SLOTS`. -/
def isFull (tail head : Word) : Bool := decide ((slots : ℤ) ≤ (tail - head).toInt)

/-- Where a thread stands in `sendNative`: the access it makes next, or the word it waits on. -/
inductive Thread where
  | idle
  | lock (m : Message)
  | waitLock (m : Message)
  | asleepLock (m : Message)
  | loadHead (m : Message) (tail : Option Word)
  | loadTail (m : Message) (head : Word)
  | full (m : Message) (tail head : Word)
  | waitHead (m : Message) (tail head : Word)
  | asleepHead (m : Message) (tail : Word)
  | room (m : Message) (tail : Word)
  | putCallback (m : Message) (tail : Word)
  | putData (m : Message) (tail : Word)
  | storeTail (m : Message) (tail : Word)
  | notifyTail
  | unlock
  | notifyLock
  deriving DecidableEq

/-- Where `drain` stands. -/
inductive Receiver where
  | start
  | loadHead
  | loadTail (head : Word)
  | loadStop (head : Word)
  | readCallback (head : Word)
  | readData (head callback : Word)
  | storeHead (head : Word) (m : Message)
  | notifyHead (m : Message)
  | receive (m : Message)
  | ending
  | endHead
  | waitTail (head : Word)
  | asleep
  | done
  deriving DecidableEq

/-- Where `stopNative` stands. -/
inductive Stopper where
  | store
  | notifyTail
  | notifyHead
  deriving DecidableEq

/-- The shared words, those that wait for the lock in their order, and the parties; then what
each thread was asked to send, what was stored, and what `receive` was called with. -/
structure World where
  head : Word
  tail : Word
  locked : Bool
  stop : Bool
  callbacks : ℕ → Word
  data : ℕ → Word
  lockWaiters : List ℕ
  threads : ℕ → Thread
  receiver : Receiver
  stopper : Stopper
  asked : ℕ → List Message
  sent : List (ℕ × Message)
  received : List Message

inductive Action where
  | send (i : ℕ) (m : Message)
  | thread (i : ℕ)
  | receiver (throws : Bool)
  | stop
  deriving DecidableEq

namespace Thread

def test (m : Message) (tail head : Word) : Thread :=
  if isFull tail head then full m tail head else room m tail

def wakeLock : Thread → Thread
  | asleepLock m => lock m
  | t => t

def wakeHead : Thread → Thread
  | asleepHead m tail => loadHead m (some tail)
  | t => t

end Thread

namespace World

/-- `createNativeQueue`, before anyone sends and as the receiver begins. -/
def new : World where
  head := 0
  tail := 0
  locked := false
  stop := false
  callbacks _ := 0
  data _ := 0
  lockWaiters := []
  threads _ := .idle
  receiver := .start
  stopper := .store
  asked _ := []
  sent := []
  received := []

variable (w : World)

def goto (i : ℕ) (t : Thread) : World := { w with threads := update w.threads i t }

@[simp] theorem goto_threads_self (i : ℕ) (t : Thread) : (w.goto i t).threads i = t :=
  update_self ..

@[simp] theorem goto_threads_of_ne {i j : ℕ} (h : j ≠ i) (t : Thread) :
    (w.goto i t).threads j = w.threads j :=
  update_of_ne h ..

/-- `Atomics.notify(words, TAIL)`. -/
def notifyTail : World :=
  { w with receiver := if w.receiver = .asleep then .start else w.receiver }

/-- `Atomics.notify(words, HEAD)`. -/
def notifyHead : World := { w with threads := fun i => (w.threads i).wakeHead }

/-- `Atomics.notify(words, LOCK, 1)`. -/
def notifyLock : World :=
  match w.lockWaiters with
  | [] => w
  | i :: rest => { w.goto i (w.threads i).wakeLock with lockWaiters := rest }

/-- The next access of a thread in `sendNative`. -/
def stepThread (i : ℕ) : Option World :=
  match w.threads i with
  | .idle | .asleepLock _ | .asleepHead _ _ => none
  | .lock m =>
    if w.locked then some (w.goto i (.waitLock m))
    else some { w.goto i (.loadHead m none) with locked := true }
  | .waitLock m =>
    if w.locked then some { w.goto i (.asleepLock m) with lockWaiters := w.lockWaiters ++ [i] }
    else some (w.goto i (.lock m))
  | .loadHead m none => some (w.goto i (.loadTail m w.head))
  | .loadHead m (some tail) => some (w.goto i (.test m tail w.head))
  | .loadTail m head => some (w.goto i (.test m w.tail head))
  | .full m tail head => some (w.goto i (if w.stop then .unlock else .waitHead m tail head))
  | .waitHead m tail head =>
    some (w.goto i (if w.head = head then .asleepHead m tail else .loadHead m (some tail)))
  | .room m tail => some (w.goto i (if w.stop then .unlock else .putCallback m tail))
  | .putCallback m tail =>
    some { w.goto i (.putData m tail) with
      callbacks := update w.callbacks (slotOf tail) m.callback }
  | .putData m tail =>
    some { w.goto i (.storeTail m tail) with data := update w.data (slotOf tail) m.data }
  | .storeTail m tail =>
    some { w.goto i .notifyTail with tail := tail + 1, sent := w.sent ++ [(i, m)] }
  | .notifyTail => some (w.notifyTail.goto i .unlock)
  | .unlock => some { w.goto i .notifyLock with locked := false }
  | .notifyLock => some (w.goto i .idle).notifyLock

/-- The next access of `drain`; a `receive` that throws leaves the loop. -/
def stepReceiver (throws : Bool) : Option World :=
  match w.receiver with
  | .asleep | .done => none
  | .start => some { w with receiver := if w.stop then .done else .loadHead }
  | .loadHead => some { w with receiver := .loadTail w.head }
  | .loadTail head =>
    some { w with receiver := if head = w.tail then .ending else .loadStop head }
  | .loadStop head => some { w with receiver := if w.stop then .ending else .readCallback head }
  | .readCallback head => some { w with receiver := .readData head (w.callbacks (slotOf head)) }
  | .readData head callback =>
    some { w with receiver := .storeHead head ⟨callback, w.data (slotOf head)⟩ }
  | .storeHead head m => some { w with head := head + 1, receiver := .notifyHead m }
  | .notifyHead m => some { w.notifyHead with receiver := .receive m }
  | .receive m =>
    some { w with
      received := w.received ++ [m]
      receiver := if throws then .ending else .loadHead }
  | .ending => some { w with receiver := if w.stop then .done else .endHead }
  | .endHead => some { w with receiver := .waitTail w.head }
  | .waitTail head => some { w with receiver := if w.tail = head then .asleep else .start }

/-- The next access of `stopNative`. -/
def stepStop : World :=
  match w.stopper with
  | .store => { w with stop := true, stopper := .notifyTail }
  | .notifyTail => { w.notifyTail with stopper := .notifyHead }
  | .notifyHead => { w.notifyHead with stopper := .store }

def send (i : ℕ) (m : Message) : Option World :=
  if w.threads i = .idle then
    some { w.goto i (.lock m) with asked := update w.asked i (w.asked i ++ [m]) }
  else none

def step (w : World) : Action → Option World
  | .send i m => w.send i m
  | .thread i => w.stepThread i
  | .receiver throws => w.stepReceiver throws
  | .stop => some w.stepStop

end World

end NativeQueue

end Tabnode
