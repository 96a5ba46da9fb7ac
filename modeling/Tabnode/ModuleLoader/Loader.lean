import Mathlib.Data.List.Basic
import Mathlib.Logic.Function.Basic
import Mathlib.Logic.Relation

/-!
# Lowered bodies and the graph of their imports

A lowered ES module body is read here for what its loading depends on: each static
import, a `require` behind which an await mark reads what the imported module is still
settling on; each top-level `await` of its own that it meets; and a statement that throws.
Imports stand where the source has them, and several of one specifier are one. The kind of
the body (`bodyKind`) is the loader's: a body with a top-level `await` of its own is an
async function, one that only imports is a generator, any other is run as it is.
-/

namespace Tabnode

namespace ModuleLoader

/-- What a body does next, as far as its loading depends on it. -/
inductive Statement (File : Type*) where
  /-- `const ns = require(file); /*__substrate_await__*/(ns && ns[pending]);` -/
  | importFrom (file : File)
  | awaits
  | throws
  deriving DecidableEq

/-- A module's body. Only text marked as having a top-level `await` can reach one. -/
structure Source (File : Type*) where
  body : List (Statement File)
  topLevelAwait : Bool
  marked : .awaits ∈ body → topLevelAwait = true

inductive BodyKind where
  | sync
  | generator
  | async
  deriving DecidableEq

def Statement.hasMark {File : Type*} : Statement File → Bool
  | .importFrom _ => true
  | .awaits => false
  | .throws => false

/-- `__substrateBodyKind`. -/
def Source.bodyKind {File : Type*} (source : Source File) : BodyKind :=
  if source.topLevelAwait then .async
  else if source.body.any Statement.hasMark then .generator
  else .sync

variable {File : Type*}

theorem Source.bodyKind_ne_sync {source : Source File} {n : ℕ} {f : File}
    (h : source.body[n]? = some (.importFrom f)) : source.bodyKind ≠ .sync := by
  have hmark : source.body.any Statement.hasMark = true :=
    List.any_eq_true.2 ⟨_, List.mem_of_getElem? h, rfl⟩
  unfold Source.bodyKind
  rw [if_pos hmark]
  split <;> exact BodyKind.noConfusion

section Graph

variable (program : File → Source File)

def Imports (importer imported : File) : Prop :=
  .importFrom imported ∈ (program importer).body

def Reaches : File → File → Prop :=
  Relation.ReflTransGen (Imports program)

def OnCycle (importer imported : File) : Prop :=
  Imports program importer imported ∧ Reaches program imported importer

end Graph

end ModuleLoader

end Tabnode

/-!
## The module loader

A load makes a module record, puts it in the cache before its body runs, and runs the
body. A body that must wait leaves its load with a mark on its exports, the promise of
what is left of it (`__substrateKeepPending`); an importer that reads the mark waits for
that promise. The state is the records made so far, each named by its index, the cache,
and the bodies the engine is running, innermost first. Between two jobs none is running,
and an action says which promise is settled next or which reaction runs.
-/

namespace Tabnode

namespace ModuleLoader

/-- What a suspended body awaits. -/
inductive Awaited where
  /-- a top-level `await` of its own -/
  | own
  /-- `await undefined`, an async body's mark at an import that has settled -/
  | nothing
  /-- the promise kept on another module's exports -/
  | body (module : ℕ)
  deriving DecidableEq

/-- How far a module is. -/
inductive Phase where
  | runs
  /-- its `require` of the module is made, and the mark behind it comes next -/
  | atMark (imported : ℕ)
  | awaits (what : Awaited)
  /-- the body's promise is settled and the reaction to it has not run -/
  | ended (ok : Bool)
  | settled (ok : Bool)
  deriving DecidableEq

/-- A module record. `pending` stands for its entry in `__substratePendingModules` and
for the mark on its exports, which are set and deleted together. -/
structure Module (File : Type*) where
  file : File
  parent : Option ℕ
  position : ℕ := 0
  phase : Phase := .runs
  pending : Bool := false
  loaded : Bool := false

/-- The loader's state; `throwing` says that the innermost `require` is leaving by an
exception. -/
structure Loader (File : Type*) where
  modules : List (Module File)
  moduleCache : File → Option ℕ
  children : ℕ → List ℕ
  stack : List ℕ
  throwing : Bool

/-- What may happen next: the running body goes on; an `await` of a body's own settles;
a suspended body's continuation runs; the reaction to a body's promise runs. -/
inductive Action where
  | run
  | settleOwn (module : ℕ) (ok : Bool)
  | resume (module : ℕ)
  | react (module : ℕ)
  deriving DecidableEq

variable {File : Type*} [DecidableEq File]

namespace Loader

variable (s : Loader File) (i : ℕ) (m : Module File)

def start (entry : File) : Loader File where
  modules := [{ file := entry, parent := none }]
  moduleCache := Function.update (fun _ => none) entry (some 0)
  children := fun _ => []
  stack := [0]
  throwing := false

@[simp] theorem start_moduleCache (entry f : File) :
    (start entry).moduleCache f = if f = entry then some 0 else none :=
  Function.update_apply (fun _ => none) entry (some 0) f

def setModule : Loader File :=
  { s with modules := s.modules.set i m }

def pendingOf (j : ℕ) : Bool :=
  match s.modules[j]? with
  | some n => n.pending
  | none => false

/-- The record is taken out of its parent's `children`. -/
def withoutChild : ℕ → List ℕ :=
  match m.parent with
  | some parent => Function.update s.children parent ((s.children parent).erase i)
  | none => s.children

/-- `loadModule`, the cache's miss: the record is its parent's child and in the cache
before its body runs. -/
def loadModule (file : File) : Loader File where
  modules := s.modules.set i { m with phase := .atMark s.modules.length } ++
    [{ file := file, parent := some i }]
  moduleCache := Function.update s.moduleCache file (some s.modules.length)
  children := Function.update s.children i (s.children i ++ [s.modules.length])
  stack := s.modules.length :: s.stack
  throwing := s.throwing

omit [DecidableEq File] in
theorem withoutChild_apply (p : ℕ) : s.withoutChild i m p =
    if m.parent = some p then (s.children p).erase i else s.children p := by
  unfold withoutChild
  cases m.parent with
  | none => simp
  | some parent =>
    by_cases hp : p = parent
    · simp [hp]
    · simp [hp, Ne.symm hp]

section LoadModule

variable (file : File)

@[simp] theorem loadModule_modules : (s.loadModule i m file).modules =
    (s.setModule i { m with phase := .atMark s.modules.length }).modules ++
      [{ file := file, parent := some i }] := rfl

@[simp] theorem loadModule_moduleCache (f : File) : (s.loadModule i m file).moduleCache f =
    if f = file then some s.modules.length else s.moduleCache f :=
  Function.update_apply ..

@[simp] theorem loadModule_children (p : ℕ) : (s.loadModule i m file).children p =
    if p = i then s.children i ++ [s.modules.length] else s.children p :=
  Function.update_apply ..

theorem loadModule_getElem?_length : (s.loadModule i m file).modules[s.modules.length]? =
    some { file := file, parent := some i } := by
  rw [loadModule_modules, setModule,
    List.getElem?_append_right (Nat.le_of_eq List.length_set), List.length_set, Nat.sub_self]
  rfl

theorem loadModule_getElem?_of_setModule {k : ℕ} {n : Module File}
    (h : (s.setModule i { m with phase := .atMark s.modules.length }).modules[k]? = some n) :
    (s.loadModule i m file).modules[k]? = some n :=
  (List.getElem?_append_left (List.getElem?_eq_some_iff.1 h).1).trans h

theorem loadModule_getElem?_cases {k : ℕ} {n : Module File}
    (h : (s.loadModule i m file).modules[k]? = some n) :
    k = s.modules.length ∧ n = { file := file, parent := some i } ∨
      (s.setModule i { m with phase := .atMark s.modules.length }).modules[k]? = some n := by
  rw [loadModule_modules, List.getElem?_append] at h
  split at h
  · exact .inr h
  · rename_i hk
    rw [List.getElem?_singleton] at h
    split at h <;> cases h
    have hlength : (s.setModule i { m with phase := .atMark s.modules.length }).modules.length =
        s.modules.length := List.length_set
    exact .inl ⟨by omega, rfl⟩

end LoadModule

/-- `require` from the body of a module. -/
def requireFile (file : File) : Loader File :=
  match s.moduleCache file with
  | some j => s.setModule i { m with phase := .atMark j }
  | none => s.loadModule i m file

def goOn : Loader File :=
  s.setModule i { m with phase := .runs, position := m.position + 1 }

/-- The body waits: its promise is kept on its exports, and the load or the job is over. -/
def suspend (what : Awaited) : Loader File :=
  { s.setModule i { m with phase := .awaits what, pending := true } with
    stack := s.stack.tail }

/-- The mark behind an import: it reads nothing in a plain body, a generator yields what
it reads and is driven on when that is nothing, an async body awaits it either way. -/
def importMark (kind : BodyKind) (imported : ℕ) : Loader File :=
  match kind with
  | .sync => s.goOn i m
  | .generator =>
    if s.pendingOf imported then s.suspend i m (.body imported) else s.goOn i m
  | .async => s.suspend i m (if s.pendingOf imported then .body imported else .nothing)

/-- The body is through: in its load, the module has loaded; in a job, its promise is
fulfilled. -/
def bodyEnds : Loader File :=
  if m.pending then
    { s.setModule i { m with phase := .ended true } with stack := s.stack.tail }
  else
    { s.setModule i { m with phase := .settled true, loaded := true } with
      stack := s.stack.tail }

/-- The body throws. In a job, and in an async body anywhere, its promise is rejected; out
of any other body's load the exception goes on to the `require`, past the two `catch`
blocks that forget the module. -/
def bodyThrows (kind : BodyKind) : Loader File :=
  if m.pending ∨ kind = .async then
    { s.setModule i { m with phase := .ended false, pending := true } with
      stack := s.stack.tail
      throwing := false }
  else
    { s.setModule i { m with phase := .settled false } with
      moduleCache := Function.update s.moduleCache m.file none
      children := s.withoutChild i m
      stack := s.stack.tail
      throwing := true }

def runBody (source : Source File) : Option (Loader File) :=
  if s.throwing then some (s.bodyThrows i m source.bodyKind)
  else
    match m.phase with
    | .runs =>
      match source.body[m.position]? with
      | none => some (s.bodyEnds i m)
      | some (.importFrom file) => some (s.requireFile i m file)
      | some .awaits => some (s.suspend i m .own)
      | some .throws => some (s.bodyThrows i m source.bodyKind)
    | .atMark imported => some (s.importMark i m source.bodyKind imported)
    | _ => none

def continueBody (ok : Bool) : Loader File :=
  if ok then { s.goOn i m with stack := [i] }
  else s.setModule i { m with phase := .ended false }

def outcome : Awaited → Option Bool
  | .own => none
  | .nothing => some true
  | .body j =>
    match s.modules[j]? with
    | some n =>
      match n.phase with
      | .settled ok => some ok
      | _ => none
    | none => none

omit [DecidableEq File] in
theorem settled_of_outcome {j : ℕ} {n : Module File} {ok : Bool} (hn : s.modules[j]? = some n)
    (h : s.outcome (.body j) = some ok) : n.phase = .settled ok := by
  simp only [outcome, hn] at h
  split at h
  · rename_i hphase
    cases h
    exact hphase
  · cases h

/-- `__substrateKeepPending`'s reaction to the body's promise. -/
def settle (ok : Bool) : Loader File :=
  if ok then
    s.setModule i { m with phase := .settled true, pending := false, loaded := true }
  else
    { s.setModule i { m with phase := .settled false, pending := false } with
      moduleCache :=
        if s.moduleCache m.file = some i then Function.update s.moduleCache m.file none
        else s.moduleCache
      children := s.withoutChild i m }

end Loader

def step (program : File → Source File) (s : Loader File) : Action → Option (Loader File)
  | .run =>
    match s.stack with
    | [] => none
    | i :: _ => s.modules[i]?.bind fun m => s.runBody i m (program m.file)
  | .settleOwn i ok =>
    if s.stack = [] then
      s.modules[i]?.bind fun m =>
        if m.phase = .awaits .own then some (s.continueBody i m ok) else none
    else none
  | .resume i =>
    if s.stack = [] then
      s.modules[i]?.bind fun m =>
        match m.phase with
        | .awaits what => (s.outcome what).map (s.continueBody i m)
        | _ => none
    else none
  | .react i =>
    if s.stack = [] then
      s.modules[i]?.bind fun m =>
        match m.phase with
        | .ended ok => some (s.settle i m ok)
        | _ => none
    else none

end ModuleLoader

end Tabnode
