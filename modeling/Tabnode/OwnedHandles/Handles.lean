import Mathlib.Data.Finset.Card
import Tabnode.Data.Buckets
import Tabnode.Data.Machine

/-!
# The handles of a run

A handle belongs to the run that made it, or was given it, and holds that run's loop
while it is referenced and active. Which run a handle belongs to, whether it is
referenced and whether it is active are three maps; `owners` is the set of the handles
that hold each loop and `allOwned` the set of all the handles of each run. When a run
ends, its listening handles are closed first and then every handle it still has: a close
is code of the handle, which releases it, may call on other handles, and may throw.
-/

namespace Tabnode

namespace OwnedHandles

open Buckets

abbrev Token := ℕ

abbrev Handle := ℕ

structure Handles where
  owners : Token → Option (List Handle)
  allOwned : Token → Option (List Handle)
  /-- The run a handle belongs to: a registered handle may belong to none. -/
  heldBy : Handle → Option (Option Token)
  refHeld : Handle → Bool
  activeHandles : Handle → Bool

namespace Handles

def start : Handles where
  owners _ := none
  allOwned _ := none
  heldBy _ := none
  refHeld _ := false
  activeHandles _ := false

def ownerOf (s : Handles) (h : Handle) : Option Token := (s.heldBy h).join

def hold (s : Handles) (h : Handle) : Handles :=
  match s.ownerOf h with
  | none => s
  | some token =>
      if s.refHeld h && s.activeHandles h then
        { s with owners := add s.owners token h }
      else s

def drop (s : Handles) (h : Handle) : Handles :=
  match s.ownerOf h with
  | none => s
  | some token => { s with owners := remove s.owners token h }

def join (s : Handles) (h : Handle) : Handles :=
  match s.ownerOf h with
  | none => s
  | some token => { s with allOwned := add s.allOwned token h }

def leave (s : Handles) (h : Handle) : Handles :=
  match s.ownerOf h with
  | none => s
  | some token => { s with allOwned := remove s.allOwned token h }

def setHeldBy (s : Handles) (h : Handle) (held : Option (Option Token)) : Handles :=
  { s with heldBy := Function.update s.heldBy h held }

def setRef (s : Handles) (h : Handle) (b : Bool) : Handles :=
  { s with refHeld := Function.update s.refHeld h b }

def setActive (s : Handles) (h : Handle) (b : Bool) : Handles :=
  { s with activeHandles := Function.update s.activeHandles h b }

def registerHandle (s : Handles) (h : Handle) (current : Option Token) (active : Bool) :
    Handles :=
  let joined := ((s.setHeldBy h (some current)).join h).setRef h true
  (if active then joined.setActive h true else joined).hold h

def stopHandle (s : Handles) (h : Handle) : Handles := (s.setActive h false).drop h

def startHandle (s : Handles) (h : Handle) : Handles := (s.setActive h true).hold h

def refHandle (s : Handles) (h : Handle) : Handles := (s.setRef h true).hold h

def unrefHandle (s : Handles) (h : Handle) : Handles := (s.setRef h false).drop h

def releaseHandle (s : Handles) (h : Handle) : Handles :=
  ((((s.drop h).leave h).setHeldBy h none).setRef h false).setActive h false

def adoptHandle (s : Handles) (h : Handle) (token : Option Token) : Handles :=
  ((((s.drop h).leave h).setHeldBy h (some token)).join h).hold h

def holdRequest (s : Handles) (request h : Handle) (current : Option Token) : Handles :=
  let registered := s.registerHandle request current true
  registered.adoptHandle request (registered.ownerOf h)

def ownedHandleCount (s : Handles) (token : Token) : ℕ :=
  ((s.owners token).map List.length).getD 0

end Handles

/-- A call on the handles. The end of a request's hold is its release. -/
inductive Op where
  | register (h : Handle) (current : Option Token) (active : Bool)
  | start (h : Handle)
  | stop (h : Handle)
  | ref (h : Handle)
  | unref (h : Handle)
  | release (h : Handle)
  | holdRequest (request h : Handle) (current : Option Token)
  | adopt (h : Handle) (token : Option Token)
  deriving DecidableEq

/-- A call is taken, but that a handle which belongs to a run is not registered again. -/
def perform (s : Handles) : Op → Option Handles
  | .register h current active =>
      if s.ownerOf h = none then some (s.registerHandle h current active) else none
  | .start h => some (s.startHandle h)
  | .stop h => some (s.stopHandle h)
  | .ref h => some (s.refHandle h)
  | .unref h => some (s.unrefHandle h)
  | .release h => some (s.releaseHandle h)
  | .holdRequest request h current =>
      if s.ownerOf request = none then some (s.holdRequest request h current) else none
  | .adopt h token => some (s.adoptHandle h token)

/-- What the handles do at a run's end: whether each is listening and the calls its close
makes and whether it throws, both after the closes that went before. -/
structure Ending where
  listening : List Handle → Handle → Bool
  close : List Handle → Handle → List Op × Bool

/-- A run's end under way: the handles, those it has closed, and those whose close threw. -/
structure Closing where
  handles : Handles
  closed : List Handle
  failures : List Handle

variable (e : Ending)

def closeAtEnd (c : Closing) (h : Handle) : Option Closing :=
  (Machine.run perform c.handles (e.close c.closed h).1).map fun s =>
    { handles := s
      closed := c.closed ++ [h]
      failures := if (e.close c.closed h).2 then c.failures ++ [h] else c.failures }

def closeListening (c : Closing) (h : Handle) : Option Closing :=
  if e.listening c.closed h then closeAtEnd e c h else some c

def releaseOwnedServers (c : Closing) (token : Token) : Option Closing :=
  match c.handles.owners token with
  | none => some c
  | some held => Machine.run (closeListening e) c held

def releaseOwnedHandles (c : Closing) (token : Token) : Option Closing :=
  match c.handles.allOwned token with
  | none => some c
  | some held =>
      let forgotten : Handles :=
        { c.handles with
          allOwned := Function.update c.handles.allOwned token none
          owners := Function.update c.handles.owners token none }
      Machine.run (closeAtEnd e) { c with handles := forgotten } held

def endOwnedProcess (s : Handles) (token : Token) : Option Closing :=
  (releaseOwnedServers e ⟨s, [], []⟩ token).bind fun c => releaseOwnedHandles e c token

inductive Act where
  | call (op : Op)
  | endProcess (token : Token) (e : Ending)

def step (s : Handles) : Act → Option Handles
  | .call op => perform s op
  | .endProcess token e => (endOwnedProcess e s token).map Closing.handles

/-- The sets of a state are those that the ownership, the references and the activity of
its handles give. -/
structure Counted (s : Handles) : Prop where
  owners : ∀ t h, h ∈ members s.owners t ↔
    s.ownerOf h = some t ∧ s.refHeld h = true ∧ s.activeHandles h = true
  allOwned : ∀ t h, h ∈ members s.allOwned t ↔ s.ownerOf h = some t
  apart : ∀ t u h, h ∈ members s.allOwned t → h ∈ members s.allOwned u → t = u
  owners_ne_nil : ∀ t l, s.owners t = some l → l ≠ []
  allOwned_ne_nil : ∀ t l, s.allOwned t = some l → l ≠ []
  count : ∀ t (held : Finset Handle),
    (∀ h, h ∈ held ↔ s.ownerOf h = some t ∧ s.refHeld h = true ∧ s.activeHandles h = true) →
      s.ownedHandleCount t = held.card

def Ended (s : Handles) (token : Token) (c : Closing) : Prop :=
  ∀ h, s.ownerOf h = some token →
    c.closed.count h = 1 ∧ c.handles.ownerOf h ≠ some token

def Op.Takes (token : Token) (h : Handle) : Op → Prop
  | .release i => i = h
  | .adopt i given => i = h ∧ given ≠ some token
  | _ => False

def Op.Brings (token : Token) (h : Handle) : Op → Prop
  | .register i current _ => i = h ∧ current = some token
  | .adopt i given => i = h ∧ given = some token
  | .holdRequest request _ _ => request = h
  | _ => False

/-- A handle that a run's end may have to close: the run has it, or a close may give it
to the run. -/
def Concerns (s : Handles) (token : Token) (e : Ending) (h : Handle) : Prop :=
  s.ownerOf h = some token ∨ ∃ closed i, ∃ op ∈ (e.close closed i).1, op.Brings token h

/-- A run's end is clean when each close takes its handle from the run, also one that
throws, none gives the run a handle back that it had, and the close of a handle that
holds the loop takes no other from the run, but one closed before or one that will be
found listening too. -/
structure Clean (s : Handles) (token : Token) (e : Ending) : Prop where
  takes : ∀ closed h, Concerns s token e h → ∃ op ∈ (e.close closed h).1, op.Takes token h
  keeps : ∀ closed i h, Concerns s token e i → s.ownerOf h = some token →
    ∀ op ∈ (e.close closed i).1, ¬ op.Brings token h
  spares : ∀ closed i h, i ∈ members s.owners token → e.listening closed i = true →
    s.ownerOf h = some token → (∃ op ∈ (e.close closed i).1, op.Takes token h) →
      h = i ∨ h ∈ closed ∨
        (h ∈ members s.owners token ∧ ∀ later, e.listening later h = true)

def EndsClean (s : Handles) : Act → Prop
  | .call _ => True
  | .endProcess token e => Clean s token e

end OwnedHandles

end Tabnode
