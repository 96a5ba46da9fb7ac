import Mathlib.Logic.Function.Basic
import Tabnode.Data.Machine

/-!
# The descriptors of a realm

Several runs share a realm, and each has a tree that owns its open file descriptions and
numbers them by a table of its own. The realm keeps, under the bare number, which tree
answers for it, which handle of the engine's it names, which tree reserved it and which
standard stream it stands for. A call reads these tables and is carried out by what it
finds there.
-/

namespace Tabnode

namespace Descriptors

open Function

abbrev Fd := ℕ

/-- What a tree's table has under a number. -/
inductive Held where
  | file (description : ℕ)
  | reserved
  deriving DecidableEq

/-- What a number that a run was given stands for. -/
inductive Gift where
  | file (description : ℕ)
  | handle (h : ℕ)
  | standard (stream : ℕ)
  | bare
  deriving DecidableEq

structure Realm (ρ : Type*) where
  /-- The tree that answers for a number. -/
  ownedFds : Fd → Option ρ
  /-- The handle of the engine's that a number names. -/
  openFds : Fd → Option ℕ
  /-- The tree that reserved a number. -/
  reservedFds : Fd → Option ρ
  /-- The standard stream that a number stands for. -/
  stdioAliases : Fd → Option ℕ
  /-- The handles each run was started with. -/
  runFds : ρ × Fd → Option ℕ
  /-- The trees' own tables. -/
  tables : ρ × Fd → Option Held
  /-- The numbers a run was given and has not closed. -/
  given : ρ × Fd → Option Gift

variable {ρ : Type*} [DecidableEq ρ]

def start (runFds : ρ × Fd → Option ℕ) : Realm ρ where
  ownedFds _ := none
  openFds _ := none
  reservedFds _ := none
  stdioAliases _ := none
  runFds := runFds
  tables _ := none
  given _ := none

namespace Realm

/-- The handle a number names for a run: one it was started with, or one of the engine's. -/
def handleForFd (s : Realm ρ) (r : ρ) (fd : Fd) : Option ℕ := (s.runFds (r, fd)).or (s.openFds fd)

def stdioOf (s : Realm ρ) (fd : Fd) : Option ℕ :=
  (s.stdioAliases fd).or (if fd ≤ 2 ∧ s.ownedFds fd = none then some fd else none)

def openFile (s : Realm ρ) (r : ρ) (fd : Fd) (description : ℕ) : Realm ρ :=
  { s with
    tables := update s.tables (r, fd) (some (.file description))
    ownedFds := update s.ownedFds fd (some r)
    given := update s.given (r, fd) (some (.file description)) }

def allocateFd (s : Realm ρ) (r : ρ) (fd : Fd) : Realm ρ :=
  { s with
    tables := update s.tables (r, fd) (some .reserved)
    reservedFds := update s.reservedFds fd (some r)
    given := update s.given (r, fd) (some .bare) }

def registerFd (s : Realm ρ) (r : ρ) (fd : Fd) (h : ℕ) : Realm ρ :=
  let s := s.allocateFd r fd
  { s with
    openFds := update s.openFds fd (some h)
    given := update s.given (r, fd) (some (.handle h)) }

def openStandard (s : Realm ρ) (r : ρ) (fd : Fd) (stream : ℕ) : Realm ρ :=
  let s := s.allocateFd r fd
  { s with
    stdioAliases := update s.stdioAliases fd (some stream)
    given := update s.given (r, fd) (some (.standard stream)) }

def treeRelease (s : Realm ρ) (o : ρ) (fd : Fd) : Realm ρ :=
  match s.tables (o, fd) with
  | some .reserved => { s with tables := update s.tables (o, fd) none }
  | _ => s

def treeClose (s : Realm ρ) (o : ρ) (fd : Fd) : Realm ρ :=
  match s.tables (o, fd) with
  | some (.file _) => { s with tables := update s.tables (o, fd) none }
  | _ => s

def releaseFd (s : Realm ρ) (fd : Fd) : Realm ρ :=
  let s := { s with openFds := update s.openFds fd none }
  match s.reservedFds fd with
  | none => s
  | some o => { s with reservedFds := update s.reservedFds fd none }.treeRelease o fd

/-- A close by a run. A handle of the engine's gives its number back as it closes; one the
run was started with has none to give. -/
def closeFd (s : Realm ρ) (r : ρ) (fd : Fd) : Realm ρ :=
  match s.ownedFds fd with
  | some o => { s with ownedFds := update s.ownedFds fd none }.treeClose o fd
  | none =>
      match s.runFds (r, fd), s.openFds fd with
      | some _, _ => s
      | none, some _ => s.releaseFd fd
      | none, none => { s with stdioAliases := update s.stdioAliases fd none }

def forget (s : Realm ρ) (r : ρ) (fd : Fd) : Realm ρ :=
  { s with given := update s.given (r, fd) none }

def forgetReserved (s : Realm ρ) (r : ρ) (fd : Fd) : Realm ρ :=
  match s.given (r, fd) with
  | some (.file _) => s
  | _ => s.forget r fd

end Realm

/-- A call on a descriptor. -/
inductive Op where
  | read
  | write
  | fstat
  | ftruncate
  deriving DecidableEq

/-- What carries a call out. -/
inductive Carrier (ρ : Type*) where
  | tree (o : ρ) (description : ℕ)
  | handle (h : ℕ)
  | standard (r : ρ) (stream : ℕ)
  | refused
  deriving DecidableEq

def ofTree (s : Realm ρ) (o : ρ) (fd : Fd) : Carrier ρ :=
  match s.tables (o, fd) with
  | some (.file description) => .tree o description
  | _ => .refused

def carrier (s : Realm ρ) (r : ρ) (fd : Fd) : Op → Carrier ρ
  | .write =>
      match s.handleForFd r fd with
      | some h => .handle h
      | none =>
          match s.ownedFds fd with
          | some o => ofTree s o fd
          | none =>
              match s.stdioOf fd with
              | some stream => .standard r stream
              | none => .refused
  | .ftruncate =>
      match s.ownedFds fd with
      | some o => ofTree s o fd
      | none => .refused
  | _ =>
      match s.ownedFds fd with
      | some o => ofTree s o fd
      | none =>
          match s.handleForFd r fd, s.stdioOf fd with
          | none, some stream => .standard r stream
          | _, _ => .refused

/-- A call by a run that gives or takes a number; the number a tree gives is its own choice. -/
inductive Act (ρ : Type*) where
  | openFile (r : ρ) (fd : Fd) (description : ℕ)
  | openStandard (r : ρ) (fd : Fd) (stream : ℕ)
  | registerFd (r : ρ) (fd : Fd) (h : ℕ)
  | allocateFd (r : ρ) (fd : Fd)
  | close (r : ρ) (fd : Fd)
  | releaseFd (r : ρ) (fd : Fd)
  deriving DecidableEq

namespace Act

def run : Act ρ → ρ
  | openFile r _ _ => r
  | openStandard r _ _ => r
  | registerFd r _ _ => r
  | allocateFd r _ => r
  | close r _ => r
  | releaseFd r _ => r

def fd : Act ρ → Fd
  | openFile _ fd _ => fd
  | openStandard _ fd _ => fd
  | registerFd _ fd _ => fd
  | allocateFd _ fd => fd
  | close _ fd => fd
  | releaseFd _ fd => fd

def Gives : Act ρ → Prop
  | close _ _ => False
  | releaseFd _ _ => False
  | _ => True

end Act

def step (s : Realm ρ) : Act ρ → Option (Realm ρ)
  | .openFile r fd description =>
      if s.tables (r, fd) = none then some (s.openFile r fd description) else none
  | .openStandard r fd stream =>
      if s.tables (r, fd) = none then some (s.openStandard r fd stream) else none
  | .registerFd r fd h =>
      if s.tables (r, fd) = none then some (s.registerFd r fd h) else none
  | .allocateFd r fd =>
      if s.tables (r, fd) = none then some (s.allocateFd r fd) else none
  | .close r fd => some ((s.closeFd r fd).forget r fd)
  | .releaseFd r fd => some ((s.releaseFd fd).forgetReserved r fd)

/-- A call on a number that a run was given is carried out by its own: its tree, on the
description it opened, its handle, to which only writes go, or its standard stream. -/
def Carries (r : ρ) (c : Op → Carrier ρ) : Gift → Prop
  | .file description => ∀ op, c op = .tree r description
  | .handle h => c .write = .handle h ∧ ∀ op, op ≠ .write → c op = .refused
  | .standard stream => c .ftruncate = .refused ∧ ∀ op, op ≠ .ftruncate → c op = .standard r stream
  | .bare => ∀ op, (∀ o description, c op ≠ .tree o description) ∧ ∀ h, c op ≠ .handle h

def Gift.held : Gift → Held
  | .file description => .file description
  | _ => .reserved

/-- Every number means its own run's. -/
structure Faithful (s : Realm ρ) : Prop where
  carried : ∀ r fd g, s.given (r, fd) = some g → Carries r (carrier s r fd) g
  open_still : ∀ r fd g, s.given (r, fd) = some g → s.tables (r, fd) = some g.held

/-- What a call by one run leaves of another's number. -/
structure Spared (r : ρ) (fd : Fd) (s t : Realm ρ) : Prop where
  given : t.given (r, fd) = s.given (r, fd)
  tables : t.tables (r, fd) = s.tables (r, fd)
  ownedFds : t.ownedFds fd = s.ownedFds fd
  openFds : t.openFds fd = s.openFds fd
  reservedFds : t.reservedFds fd = s.reservedFds fd
  stdioAliases : t.stdioAliases fd = s.stdioAliases fd

/-- A call is on a number that no other run holds, and a number given is none of those the
run was started with. -/
def Apart (s : Realm ρ) (a : Act ρ) : Prop :=
  (∀ r, r ≠ a.run → s.given (r, a.fd) = none) ∧
    (a.Gives → s.runFds (a.run, a.fd) = none)

end Descriptors

end Tabnode
