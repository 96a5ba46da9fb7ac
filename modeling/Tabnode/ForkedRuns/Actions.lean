import Tabnode.Data.Machine
import Tabnode.ForkedRuns.Runs

/-!
# The steps of a realm that forks runs

`World.act` is one step of the realm or of the code around it: of the host of a run, of the
process host, of the program that runs. It is refused where the code cannot take it, or
where a party breaks its word: a registry that allocates a number that is not free, a host
that reports an end twice, or answers a run whose end it has not reported.

`Action.Fair` says of a step that it is not one of those after which a process has no end,
or two, or its end elsewhere: the registry takes what is published to it, the run that a
process's end is told through leads to the registry that numbered it, and no process that
a host runs is ended here before the host has reported its end.
-/

namespace Tabnode

namespace ForkedRuns

variable {R : Type*}

namespace World

variable (w : World R)

def childAt (i : ℕ) : Option (Job R × ChildRun) :=
  match w.jobs[i]? with
  | some job =>
    match job.kind with
    | .child c => some (job, c)
    | .launch _ => none
  | none => none

def launchAt (i : ℕ) : Option (Job R × LaunchRun) :=
  match w.jobs[i]? with
  | some job =>
    match job.kind with
    | .child _ => none
    | .launch l => some (job, l)
  | none => none

def hostedAt (i : ℕ) : Option (Job R × Hosting R) :=
  match w.jobs[i]? with
  | some job => job.hosting.map fun h => (job, h)
  | none => none

/-- A `node` is launched for a run of a host's, and for a child that this realm runs. -/
def mayLaunch : Option Token → Bool
  | some (.child n) => w.jobs.any fun job =>
    job.token = some (.child n) && job.hosting.isNone && match job.kind with
      | .child c => c.started
      | .launch _ => false
  | _ => true

end World

/-- What the realm, its hosts and the programs in it do. The number is of the job it is
about, or of the process a registry is to allocate; `answer` is what a registry answers
when it reaps. -/
inductive Action (R : Type*) where
  | registerRunStreams (name : String)
  | installRunRegistry (name : String) (registry : R)
  | claimRunPid (name : String) (pid : ℕ)
  | holdShellRun (name : String)
  | forgetRunPid (name : String)
  | releaseRunStreams (name : String)
  | spawn (q : RunRequest) (pid : ℕ) (start : Start)
  | begin (i : ℕ) (pid : ℕ) (accepted : Bool)
  | launch (run : Option Token) (pid : ℕ) (accepted early : Bool)
  | take (i : ℕ)
  | report (i : ℕ) (e : Ending)
  | settle (i : ℕ) (result : Option Ending) (answer : Ending)
  | resume (i : ℕ) (answer : Ending) (delivered : Bool)
  | ran (i : ℕ) (result : Option Ending) (answer : Ending) (delivered : Bool)
  | launched (i : ℕ) (result : Option ℤ) (answer : Ending)
  | onHostRun (i : ℕ)
  | onHostRunRejected (i : ℕ) (started endPosted : Option Bool) (exitCode : ℤ)
  | kill (i : ℕ) (signal : String) (delivered : Bool)
  | killed (i : ℕ) (answer : Ending)
  | inputFailed (i : ℕ) (answer : Ending)
/-- Whether the host has reported the end of the process it runs for a job, where that was
numbered here. -/
def Job.reported (job : Job R) (h : Hosting R) : Bool := (h.own.or job.own).all (·.reported)

namespace World

variable [DecidableEq R] (w : World R)

def report (i : ℕ) (job : Job R) (own : Owned R) (e : Ending) : Option (World R) :=
  if own.reported then none else some ((w.setJob i job).say own.home own.pid (.exit e))

def act : Action R → Option (World R)
  | .registerRunStreams name =>
    let token := Token.named name
    some { w.registerRunStreams token with opened := insert token w.opened }
  | .installRunRegistry name registry =>
    let token := Token.named name
    some { w with
      runRegistries := Function.update w.runRegistries token (some registry)
      given := insert token w.given }
  | .claimRunPid name pid =>
    let token := Token.named name
    some { w with
      pidsOfRuns := Function.update w.pidsOfRuns token (some pid)
      given := insert token w.given }
  | .holdShellRun name => some { w with shellRuns := insert (.named name) w.shellRuns }
  | .forgetRunPid name => some (w.forgetRunPid (.named name))
  | .releaseRunStreams name => some (w.releaseRunStreams (.named name))
  | .spawn q pid start =>
    if w.refusesSpawn q || w.Free (w.registryFor q.owner) pid then
      some (w.startChildRun q pid start)
    else none
  | .begin i pid accepted =>
    match w.childAt i with
    | some (job, c) =>
      match job.token with
      | some token =>
        if w.Free w.processRegistry pid then some (w.begin i job c token pid accepted) else none
      | none => none
    | none => none
  | .launch run pid accepted early =>
    let registry := match run with
      | some token => if w.nests token then w.registryFor run else w.processRegistry
      | none => w.processRegistry
    if w.mayLaunch run && w.Free registry pid then some (w.launchNode run pid accepted early)
    else none
  | .take i =>
    match w.hostedAt i with
    | some (job, h) =>
      if h.pending then some (w.setJob i { job with hosting := some { h with taken := true } })
      else none
    | none => none
  | .report i e =>
    match w.jobs[i]? with
    | some ⟨token, parent, own, some h, kind⟩ =>
      if h.taken && h.pending then
        match h.own, own with
        | some o, _ => w.report i ⟨token, parent, own,
          some { h with own := some { o with reported := true } }, kind⟩ o e
        | none, some o =>
          w.report i ⟨token, parent, some { o with reported := true }, some h, kind⟩ o e
        | none, none => none
      else none
    | some ⟨token, parent, some o, none, .child c⟩ =>
      if c.hostRun then
        w.report i ⟨token, parent, some { o with reported := true }, none, .child c⟩ o e
      else none
    | _ => none
  | .settle i result answer =>
    match w.hostedAt i with
    | some (job, h) =>
      match job.token with
      | some token =>
        if h.pending && (result.isNone || h.taken && job.reported h) then
          let (w, h) := w.endHostedNode token h result answer
          some (w.setJob i { job with hosting := some h })
        else none
      | none => none
    | none => none
  | .resume i answer delivered =>
    match w.hostedAt i with
    | some (job, h) =>
      match h.answer, job.kind with
      | some result, .child c =>
        if delivered then some (w.finish i job c (result.getD c.failure) answer)
        else some (w.setJob i { job with kind := .child { c with thrown := true } })
      | some result, .launch l =>
        if l.ended then none else some (w.resumeLaunch i job l result answer)
      | none, _ => none
    | none => none
  | .ran i result answer delivered =>
    match w.childAt i with
    | some (job, c) =>
      if c.started && job.hosting.isNone then
        if delivered then some (w.finish i job c (result.getD c.failure) answer)
        else some (w.setJob i { job with kind := .child { c with thrown := true } })
      else none
    | none => none
  | .launched i result answer =>
    match w.launchAt i with
    | some (job, l) =>
      if job.hosting.isNone && !l.ended then some (w.endLaunch i job l result answer)
      else none
    | none => none
  | .onHostRun i =>
    match w.childAt i with
    | some (job, c) =>
      if c.started && job.hosting.isNone && c.plan ≠ .direct then
        some (w.setJob i { job with kind := .child { c with hostRun := true } })
      else none
    | none => none
  | .onHostRunRejected i started endPosted exitCode =>
    match w.childAt i with
    | some (job, c) =>
      if c.hostRun then
        if started = some false ∧ endPosted = some false then
          -- the host's word: it has not reported an end
          if job.own.any (·.reported) then none
          else
            let code : ℤ := if exitCode = 126 then 126 else 127
            let c := { c with hostRun := false, hostRunRejectionExitCode := some code }
            some (w.setJob i { job with kind := .child c })
        else some w
      else none
    | none => none
  | .kill i signal delivered =>
    match w.childAt i with
    | some (job, c) =>
      if c.finished then some w
      else if job.hosting.isSome && signal ≠ "SIGKILL" && signal ≠ "SIGSTOP" && delivered then
        some w
      else if c.hostRun then some w
      else some (w.setJob i { job with kind := .child { c with killedBy := some signal } })
    | none => none
  | .killed i answer =>
    match w.childAt i with
    | some (job, c) =>
      match c.killedBy with
      | some signal => some (w.finish i job c ⟨0, some signal⟩ answer)
      | none => none
    | none => none
  | .inputFailed i answer =>
    match w.childAt i with
    | some (job, c) => some (w.finish i job c (.exited 1) answer)
    | none => none

/-- The end of a child, if it is still to come, goes to the registry that numbered it, and
finds that a host that runs the child has reported its end. -/
def EndsWell (job : Job R) (c : ChildRun) : Prop :=
  c.finished ∨ ∀ own ∈ job.own, w.registryFor job.parent = own.home ∧
    (c.started ∧ (job.hosting.isSome ∨ c.hostRun) → own.reported)

instance (job : Job R) (c : ChildRun) : Decidable (w.EndsWell job c) := by
  unfold EndsWell; infer_instance

end World

namespace Action

variable [DecidableEq R]

/-- A step after which no process is without its end: what is published is taken; a launch
is of a named run; a process ends through a run that leads to the registry that numbered
it, and a launch's under the number it was given; and the process of a host has its end
from the host, or, where the host failed, not from it. -/
def Fair (w : World R) : Action R → Prop
  | .spawn q _ start => w.refusesSpawn q ∨ start = .accepted
  | .begin _ _ accepted => accepted
  | .launch run _ accepted early =>
    accepted ∧ (run.isSome ∨ early ∨ w.initialPid ∨ w.nodeProcessHostInstalled)
  | .settle i none _ =>
    match w.hostedAt i with
    | some (_, h) => ∀ own ∈ h.own, own.reported = false
    | none => True
  | .resume i _ delivered =>
    match w.hostedAt i with
    | some (⟨token, parent, own, hosting, .child c⟩, _) =>
      (delivered ∨ c.finished) ∧ w.EndsWell ⟨token, parent, own, hosting, .child c⟩ c
    | some (⟨_, parent, own, _, .launch l⟩, h) => l.nested → ∀ o ∈ own,
      w.registryFor parent = o.home ∧ (h.answer = some none → o.reported = false)
    | none => True
  | .ran i _ _ delivered =>
    match w.childAt i with
    | some (job, c) => (delivered ∨ c.finished) ∧ w.EndsWell job c
    | none => True
  | .launched i _ _ =>
    match w.launchAt i with
    | some (job, l) => ∀ own ∈ job.own, ∀ reaper ∈ l.reaper,
      job.token.bind w.pidsOfRuns = some own.pid ∧ w.registryFor reaper = own.home
    | none => True
  | .onHostRun i =>
    match w.childAt i with
    | some (_, c) => ¬ c.finished
    | none => True
  | .killed i _ =>
    match w.childAt i with
    | some (job, c) => w.EndsWell job c
    | none => True
  | .inputFailed i _ =>
    match w.childAt i with
    | some (job, c) => w.EndsWell job c
    | none => True
  | _ => True

instance (w : World R) (a : Action R) : Decidable (a.Fair w) := by
  unfold Fair
  split <;> try infer_instance
  all_goals split <;> infer_instance

end Action

end ForkedRuns

end Tabnode
