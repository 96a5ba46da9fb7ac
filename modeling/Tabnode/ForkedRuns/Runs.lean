import Mathlib.Data.Finset.Basic
import Mathlib.Data.Finset.Dedup
import Mathlib.Logic.Function.Basic
import Tabnode.Data.Lives

/-!
# The numbers of runs, and the processes started for them

A realm keeps its numbers of runs in four tables: the registry of a run whose process has
one of its own, the number of a run that has one, the streams and the descriptors a run
was started with. Every call to a registry is one to a number of that registry, and the
calls are kept in a log; beside them, what the handle of a process is told.

A process is started by `startChildRun`, as the child of the run that owns a handle, or by
`launchNode`, as the `node` of a run or of a run's shell. Either may give it to a process
host (`runHostedNode`). Each such activation is a `Job`; it holds the numbers allocated
for it.
-/

namespace Tabnode

namespace ForkedRuns

open Life (Call)

/-- The name of a run: one its host chose, or `child-${n}`. -/
inductive Token where
  | named (name : String)
  | child (n : ℕ)
  deriving DecidableEq

/-- How a process ended. -/
structure Ending where
  code : ℤ
  signal : Option String
  deriving DecidableEq

def Ending.exited (code : ℤ) : Ending := ⟨code, none⟩

def Ending.killed : Ending := ⟨0, some "SIGKILL"⟩

/-- A process numbered for a job: the registry that allocated it, its number there, and
whether a host has reported its end. -/
structure Owned (R : Type*) where
  home : R
  pid : ℕ
  reported : Bool
  deriving DecidableEq

/-- `runHostedNode` under way: the process it forked, if the run was not numbered; whether
the host took the run; and what became of it, once it is settled (`none` where it threw). -/
structure Hosting (R : Type*) where
  own : Option (Owned R)
  taken : Bool
  answer : Option (Option Ending)

/-- How a child is run: a `node` by the process host, a `node` by this realm, any other
program by the shell or the host's executor. -/
inductive Plan where
  | admitted
  | direct
  | routed
  deriving DecidableEq

/-- What is particular to a child: `thrown` says that its start, or the delivery of its
output, threw. -/
structure ChildRun where
  plan : Plan
  started : Bool
  finished : Bool
  hostRun : Bool
  hostRunRejectionExitCode : Option ℤ
  killedBy : Option String
  thrown : Bool

/-- What is particular to a launch: `reaper` is whose wait its end is, if it is anyone's. -/
structure LaunchRun where
  nested : Bool
  reaper : Option (Option Token)
  ended : Bool

inductive Kind where
  | child (c : ChildRun)
  | launch (l : LaunchRun)

/-- An activation of `startChildRun` or of `launchNode`: its run, the run that forks it, the
process numbered for it, and the process host's part in it. -/
structure Job (R : Type*) where
  token : Option Token
  parent : Option Token
  own : Option (Owned R)
  hosting : Option (Hosting R)
  kind : Kind

/-- The realm. `initialPid` says that the realm was started as a process itself. `given`
and `opened` are the runs that a host gave a registry or a number, and streams, and has
not forgotten and released. -/
structure World (R : Type*) where
  processRegistry : R
  initialPid : Bool
  nodeProcessHostInstalled : Bool
  localToken : Option Token
  runRegistries : Token → Option R
  pidsOfRuns : Token → Option ℕ
  runStreams : Finset Token
  runFds : Finset (Token × ℕ)
  shellRuns : Finset Token
  hostedNodes : Finset Token
  nextChildRun : ℕ
  given : Finset Token
  opened : Finset Token
  log : List ((R × ℕ) × Call Ending)
  jobs : List (Job R)

namespace World

variable {R : Type*}

def start (processRegistry : R) (initialPid nodeProcessHostInstalled : Bool)
    (localToken : Option Token) : World R where
  processRegistry := processRegistry
  initialPid := initialPid
  nodeProcessHostInstalled := nodeProcessHostInstalled
  localToken := localToken
  runRegistries _ := none
  pidsOfRuns _ := none
  runStreams := ∅
  runFds := ∅
  shellRuns := ∅
  hostedNodes := ∅
  nextChildRun := 1
  given := ∅
  opened := ∅
  log := []
  jobs := []

variable (w : World R)

def registryFor (run : Option Token) : R :=
  (run.bind w.runRegistries).getD w.processRegistry

def say (registry : R) (pid : ℕ) (call : Call Ending) : World R :=
  { w with log := w.log ++ [((registry, pid), call)] }

def heard [DecidableEq R] (registry : R) (pid : ℕ) : List (Call Ending) :=
  Life.heard w.log (registry, pid)

/-- `mintPid`: the registry of the run that forks allocates the number. -/
def mintPid (parent : Option Token) (pid : ℕ) (handle : Bool) : World R :=
  w.say (w.registryFor parent) pid (.allocate handle)

/-- `setRunPid`. The registry may refuse the publication, which throws before the number
is recorded. -/
def setRunPid [DecidableEq R] (token : Token) (pid : ℕ) (parent : Option Token)
    (accepted : Bool) : World R :=
  let registry := w.registryFor parent
  { w with
    runRegistries :=
      if registry ≠ w.processRegistry ∧ w.runRegistries token = none then
        Function.update w.runRegistries token (some registry)
      else w.runRegistries
    pidsOfRuns :=
      if accepted then Function.update w.pidsOfRuns token (some pid) else w.pidsOfRuns }

def exitRunProcess (pid : ℕ) (e : Ending) (parent : Option Token) : World R :=
  w.say (w.registryFor parent) pid (.exit e)

/-- `reapRunProcess`, the registry answering with the end it holds. -/
def reapRunProcess (pid : ℕ) (answer : Ending) (parent : Option Token) : World R :=
  w.say (w.registryFor parent) pid (.reap answer)

def forgetRunPid (token : Token) : World R :=
  { w with
    runRegistries := Function.update w.runRegistries token none
    pidsOfRuns := Function.update w.pidsOfRuns token none
    given := w.given.erase token }

def registerRunStreams (token : Token) : World R :=
  { w with runStreams := insert token w.runStreams }

def releaseRunStreams (token : Token) : World R :=
  { w with
    runStreams := w.runStreams.erase token
    shellRuns := w.shellRuns.erase token
    hostedNodes := w.hostedNodes.erase token
    opened := w.opened.erase token }

/-- `registerRunFd`, for each of the descriptors. -/
def registerRunFds (token : Token) (fds : List ℕ) : World R :=
  { w with runFds := w.runFds ∪ (fds.map fun fd => (token, fd)).toFinset }

def releaseRunFds (token : Token) : World R :=
  { w with runFds := w.runFds.filter fun p => p.1 ≠ token }

/-- `nodeProcessHostFor`: whether it answers a host. For the realm's own run it answers
none, or throws. -/
def nodeProcessHostFor (token : Option Token) : Bool :=
  w.nodeProcessHostInstalled && token.isSome && (token != w.localToken)

def setJob (i : ℕ) (job : Job R) : World R := { w with jobs := w.jobs.set i job }

def push (job : Job R) : World R := { w with jobs := w.jobs ++ [job] }

end World

end ForkedRuns

end Tabnode

/-!
## How a process is started, run and ended

`startChildRun` numbers a child and begins it, at once or on a later turn; its `end` is
reached when its run settles, when it is killed, and when its input fails, and does its
work the first time. `launchNode` numbers a nested `node`, or the first `node` of a run
that has no number, and ends it where it takes its run apart. `runHostedNode` forks a run
that has no number, hands it to the host and reaps it; of a child's and of a nested
`node`'s process the caller reaps.
-/

namespace Tabnode

namespace ForkedRuns

open Life (Call)

variable {R : Type*}

/-- What `startChildRun` is asked, with what it finds out about the program: whether it is
a `node`, whether there is a terminal, and whether the host has an executor. -/
structure RunRequest where
  owner : Option Token
  nodeChild : Bool
  terminal : Bool
  hostExecutor : Bool
  kernelDescriptors : Bool
  fds : List ℕ

/-- How the start of a numbered child goes: the registry may refuse its publication, and
the hand-over of its descriptors may throw. -/
inductive Start where
  | accepted
  | refused
  | handOverThrew
  deriving DecidableEq

def Hosting.pending (h : Hosting R) : Bool := h.answer.isNone

/-- A job is over: a child ended, or its start or delivery threw; a launch returned or
threw. -/
def Kind.over : Kind → Bool
  | .child c => c.finished || c.thrown
  | .launch l => l.ended

def Kind.handle : Kind → Bool
  | .child _ => true
  | .launch _ => false

def launchEnd : Option ℤ → Ending
  | some code => .exited code
  | none => .killed

def ChildRun.failure (c : ChildRun) : Ending :=
  .exited (c.hostRunRejectionExitCode.getD 1)

namespace World

variable [DecidableEq R] (w : World R)

def Free (registry : R) (pid : ℕ) : Prop :=
  Life.read (w.heard registry pid) = some .free

instance (registry : R) (pid : ℕ) : Decidable (w.Free registry pid) := by
  unfold Free; infer_instance

/-! ### A run given to the process host -/

/-- The beginning of `runHostedNode`: a run not yet numbered is forked here. -/
def runHostedNode (token : Token) (pid : ℕ) (accepted : Bool) : World R × Hosting R :=
  if w.pidsOfRuns token = none then
    ((w.mintPid none pid false).setRunPid token pid none accepted,
      { own := some ⟨w.registryFor none, pid, false⟩
        taken := false
        answer := if accepted then none else some none })
  else (w, { own := none, taken := false, answer := none })

/-- The rest of `runHostedNode`, once the host has answered, or it threw before. -/
def endHostedNode (token : Token) (h : Hosting R) (result : Option Ending)
    (answer : Ending) : World R × Hosting R :=
  match result, h.own with
  | some e, some own =>
    ((w.reapRunProcess own.pid answer none).forgetRunPid token,
      { h with answer := some (some ⟨answer.code, answer.signal.or e.signal⟩) })
  | some e, none => (w.forgetRunPid token, { h with answer := some (some e) })
  | none, some own =>
    (((w.exitRunProcess own.pid .killed none).reapRunProcess own.pid answer
        none).forgetRunPid token,
      { h with answer := some none })
  | none, none => (w.forgetRunPid token, { h with answer := some none })

/-! ### A child -/

def runByHost (q : RunRequest) : Bool :=
  if q.nodeChild && w.nodeProcessHostInstalled then true
  else if !q.hostExecutor then false
  else !q.nodeChild || q.terminal

def planOf (q : RunRequest) : Plan :=
  let admittedNode := w.nodeProcessHostInstalled && q.nodeChild
  let hostTerminal := q.terminal && q.hostExecutor && !admittedNode
  if admittedNode then .admitted
  else if q.nodeChild && !hostTerminal then .direct
  else .routed

/-- Whether `startChildRun` throws before it numbers the child. -/
def refusesSpawn (q : RunRequest) : Bool := q.kernelDescriptors && !w.runByHost q

/-- `startChildRun`, to its return. -/
def startChildRun (q : RunRequest) (pid : ℕ) (start : Start) : World R :=
  if w.refusesSpawn q then w
  else
    let token := Token.child w.nextChildRun
    let own : Owned R := ⟨w.registryFor q.owner, pid, false⟩
    let child : ChildRun := ⟨w.planOf q, false, false, false, none, none, false⟩
    let w := { w with nextChildRun := w.nextChildRun + 1 }
    let w := (w.mintPid q.owner pid true).setRunPid token pid q.owner (start ≠ .refused)
    if start ≠ .accepted then
      w.push ⟨some token, q.owner, some own, none, .child { child with thrown := true }⟩
    else
      let w :=
        if child.plan = .routed then { w with shellRuns := insert token w.shellRuns } else w
      ((w.registerRunStreams token).registerRunFds token q.fds).push
        ⟨some token, q.owner, some own, none, .child child⟩

/-- `end`: a child's end, the first time. -/
def finish (i : ℕ) (job : Job R) (c : ChildRun) (e answer : Ending) : World R :=
  match job.token, job.own with
  | some token, some own =>
    if c.finished then w
    else
      let w := w.setJob i { job with kind := .child { c with finished := true } }
      let w := (w.releaseRunStreams token).releaseRunFds token
      let w :=
        if !c.started || (!job.hosting.isSome && !c.hostRun) then
          w.exitRunProcess own.pid e job.parent
        else w
      let w := (w.reapRunProcess own.pid answer job.parent).forgetRunPid token
      w.say own.home own.pid (.tell answer)
  | _, _ => w

def begin (i : ℕ) (job : Job R) (c : ChildRun) (token : Token) (pid : ℕ)
    (accepted : Bool) : World R :=
  if c.started || c.finished then w
  else
    let c := { c with started := true }
    if c.plan = .admitted && w.nodeProcessHostFor (some token) then
      let (w, hosting) := w.runHostedNode token pid accepted
      w.setJob i { job with hosting := some hosting, kind := .child c }
    else w.setJob i { job with kind := .child c }

/-! ### A launch -/

/-- Whether a `node` launched for the run is a child of it. -/
def nests (token : Token) : Bool := token ∈ w.shellRuns ∨ token ∈ w.hostedNodes

/-- A `node` that a run's shell runs, to where it waits for its host or runs. -/
def launchNested (parent : Token) (pid : ℕ) (accepted early : Bool) : World R :=
  let token := Token.child w.nextChildRun
  let own : Owned R := ⟨w.registryFor (some parent), pid, false⟩
  let w := { w with nextChildRun := w.nextChildRun + 1 }
  let w := (w.mintPid (some parent) pid false).setRunPid token pid (some parent) accepted
  if !accepted then
    w.push ⟨some token, some parent, some own, none, .launch ⟨true, some (some parent), true⟩⟩
  else
    let w := if parent ∈ w.runStreams then w.registerRunStreams token else w
    let launch := Kind.launch ⟨true, some (some parent), false⟩
    if w.nodeProcessHostFor (some token) && !early then
      let (w, hosting) := w.runHostedNode token pid accepted
      w.push ⟨some token, some parent, some own, some hosting, launch⟩
    else w.push ⟨some token, some parent, some own, none, launch⟩

/-- A `node` that is the run itself, as far. `early` says that it returns or throws before
it is numbered. A `node` that no run names is the realm's own process, and is refused where
a process host is installed. -/
def launchRun (run : Option Token) (pid : ℕ) (accepted early : Bool) : World R :=
  let own : Owned R := ⟨w.registryFor none, pid, false⟩
  let job : Job R := ⟨run, run, none, none, .launch ⟨false, none, false⟩⟩
  if early then w.push job
  else
    match run with
    | none => if w.initialPid || w.nodeProcessHostInstalled then w.push job
      else (w.mintPid none pid false).push { job with own := some own }
    | some token =>
      if w.nodeProcessHostFor run then
        let w := { w with hostedNodes := insert token w.hostedNodes }
        let (w, hosting) := w.runHostedNode token pid accepted
        w.push { job with hosting := some hosting }
      else if w.pidsOfRuns token = none then
        let reaper := if accepted then some none else none
        ((w.mintPid none pid false).setRunPid token pid none accepted).push
          { job with own := some own, kind := .launch ⟨false, reaper, false⟩ }
      else w.push job

def launchNode (run : Option Token) (pid : ℕ) (accepted early : Bool) : World R :=
  match run with
  | some token =>
    if w.nests token then w.launchNested token pid accepted early
    else w.launchRun run pid accepted early
  | none => w.launchRun none pid accepted early

def reapBy (parent : Option Token) (pid : ℕ) (ended : Option Ending) (answer : Ending) :
    World R :=
  match ended with
  | some e => (w.exitRunProcess pid e parent).reapRunProcess pid answer parent
  | none => w.reapRunProcess pid answer parent

def endLaunch (i : ℕ) (job : Job R) (l : LaunchRun) (result : Option ℤ) (answer : Ending) :
    World R :=
  let done : Job R := { job with kind := .launch { l with ended := true } }
  match job.token with
  | none => w.setJob i done
  | some token =>
    let w := match l.reaper, w.pidsOfRuns token with
      | some reaper, some pid => w.reapBy reaper pid (some (launchEnd result)) answer
      | _, _ => w
    let w := w.forgetRunPid token
    (if l.nested then w.releaseRunStreams token else w).setJob i done

/-- A launch goes on when `runHostedNode` is done: `result` is what it returned. -/
def resumeLaunch (i : ℕ) (job : Job R) (l : LaunchRun) (result : Option Ending)
    (answer : Ending) : World R :=
  let done : Job R := { job with kind := .launch { l with ended := true } }
  match l.nested, job.token, job.own with
  | true, some token, some own =>
    let ended := if result.isSome then none else some Ending.killed
    ((w.reapBy job.parent own.pid ended answer).releaseRunStreams token).setJob i done
  | _, _, _ => w.setJob i done

end World

end ForkedRuns

end Tabnode
