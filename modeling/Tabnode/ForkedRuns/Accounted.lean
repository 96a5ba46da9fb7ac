import Tabnode.ForkedRuns.Ends
import Tabnode.ForkedRuns.Starts

/-!
# Every forked process is accounted for

In a run all of whose steps are fair, what is heard of each number of each registry is
whole lives, and of a number that a job holds the beginning of one more; and the tables
have no entry of a run that no job is about and no host gave.

A run whose parent is forgotten before its child ends is not so: the child's end goes to
the realm's own registry.
-/

namespace Tabnode

namespace ForkedRuns

open Life (Call Whole)

variable {R : Type*} {w w' : World R} {i : ℕ} {job : Job R}

/-! ## A step -/

variable {c : ChildRun}

theorem World.childAt_eq_some (h : w.childAt i = some (job, c)) :
    w.jobs[i]? = some job ∧ job.kind = .child c := by
  unfold childAt at h
  split at h
  · split at h
    · cases h
      exact ⟨‹_›, ‹_›⟩
    · cases h
  · cases h

theorem World.launchAt_eq_some {l : LaunchRun} (h : w.launchAt i = some (job, l)) :
    w.jobs[i]? = some job ∧ job.kind = .launch l := by
  unfold launchAt at h
  split at h
  · split at h
    · cases h
    · cases h
      exact ⟨‹_›, ‹_›⟩
  · cases h

theorem World.hostedAt_eq_some {h : Hosting R} (hat : w.hostedAt i = some (job, h)) :
    w.jobs[i]? = some job ∧ job.hosting = some h := by
  unfold hostedAt at hat
  split at hat
  · obtain ⟨_, hh, heq⟩ := Option.map_eq_some_iff.1 hat
    cases heq
    exact ⟨‹_›, hh⟩
  · cases hat

variable [DecidableEq R]

theorem Kept.child (hw : Kept w) {c' : ChildRun} (hi : w.jobs[i]? = some job)
    (hkind : job.kind = .child c) (hsound : ChildSound { job with kind := .child c' } c')
    (hover : c'.finished = c.finished) (hthrown : c'.thrown = c.thrown) :
    Kept (w.setJob i { job with kind := .child c' }) := by
  refine hw.quiet hi ⟨(hw.soundAt hi).home, ?_, by simp⟩ rfl ?_ ?_ ?_ ?_
  · rintro _ ⟨⟩
    exact hsound
  · funext x
    cases x <;> simp [Job.held, hkind, Kind.over, Kind.handle, hover, hthrown]
  · simp [Job.numbers, Job.pending, hkind, Kind.over, hover, hthrown]
  · simp [Job.streams, hkind, Kind.over, hover, hthrown]
  · simp [Job.fds, hkind, Kind.over, hover, hthrown]

variable {delivered : Bool} {answer : Ending}

/-- A child whose run is settled ends, where its output is delivered. -/
theorem Kept.act_over (hw : Kept w) {e : Ending} (hi : w.jobs[i]? = some job)
    (hkind : job.kind = .child c) (hdelivered : delivered ∨ c.finished) (hends : w.EndsWell job c)
    (h : (if delivered then some (w.finish i job c e answer)
      else some (w.setJob i { job with kind := .child { c with thrown := true } })) =
        some w') : Kept w' := by
  split at h
  · cases h
    exact hw.finish hi hkind hends
  · next hlost =>
    cases h
    have hfinished : c.finished = true := hdelivered.resolve_left hlost
    have hsound := (hw.soundAt hi).child c hkind
    refine hw.quiet hi ⟨(hw.soundAt hi).home, ?_, by simp⟩ rfl ?_ ?_ ?_ ?_
    · rintro _ ⟨⟩
      exact ⟨hsound.own, hsound.token, hsound.begun, hsound.apart, hsound.hosted, hsound.ended,
        fun _ => hfinished⟩
    · funext x
      cases x <;> simp [Job.held, hkind, Kind.over, hfinished]
    · simp [Job.numbers, Job.pending, hkind, Kind.over, hfinished]
    · simp [Job.streams, hkind, Kind.over, hfinished]
    · simp [Job.fds, hkind, Kind.over, hfinished]

theorem Kept.act_begin (hw : Kept w) {pid : ℕ} (h : w.act (.begin i pid true) = some w') :
    Kept w' := by
  dsimp only [World.act] at h
  split at h
  · next job c hat =>
    obtain ⟨hi, hkind⟩ := World.childAt_eq_some hat
    split at h
    · next token htoken =>
      obtain ⟨hfree, heq⟩ := Option.ite_none_right_eq_some.1 h
      cases heq
      exact hw.begin hi hkind htoken hfree
    · cases h
  · cases h

theorem Kept.act_launch (hw : Kept w) {run : Option Token} {pid : ℕ} {early : Bool}
    (hfair : run.isSome ∨ early ∨ w.initialPid ∨ w.nodeProcessHostInstalled)
    (h : w.act (.launch run pid true early) = some w') : Kept w' := by
  dsimp only [World.act] at h
  obtain ⟨hfree, heq⟩ := Option.ite_none_right_eq_some.1 h
  cases heq
  have hfree := of_decide_eq_true (Bool.and_eq_true_iff.1 hfree).2
  refine hw.launchNode (fun token hrun hnests => ?_) (fun hnests => ?_) hfair
  · subst hrun
    simpa [hnests] using hfree
  · cases run with
    | none => exact hfree
    | some token => simpa [hnests token rfl] using hfree

theorem Kept.act_report (hw : Kept w) {e : Ending} (h : w.act (.report i e) = some w') :
    Kept w' := by
  dsimp only [World.act] at h
  split at h
  · next token parent own hosting kind hi =>
    obtain ⟨hguard, htarget⟩ := Option.ite_none_right_eq_some.1 h
    have hpending : hosting.pending = true := (Bool.and_eq_true_iff.1 hguard).2
    split at htarget
    · next o hown =>
      obtain ⟨hreported, heq⟩ := Option.ite_none_left_eq_some.1 htarget
      cases heq
      exact hw.reportForked hi rfl hpending hown (by simpa using hreported)
    · next o hown =>
      obtain ⟨hreported, heq⟩ := Option.ite_none_left_eq_some.1 htarget
      cases heq
      exact hw.reportOwn hi rfl (by simpa using hreported) (.inl ⟨hosting, rfl, hpending, hown⟩)
    · cases htarget
  · next token parent o c hi =>
    obtain ⟨hrun, htarget⟩ := Option.ite_none_right_eq_some.1 h
    obtain ⟨hreported, heq⟩ := Option.ite_none_left_eq_some.1 htarget
    cases heq
    exact hw.reportOwn hi rfl (by simpa using hreported) (.inr ⟨rfl, c, rfl, hrun⟩)
  · cases h

theorem Kept.act_settle (hw : Kept w) {result : Option Ending}
    (hfair : (Action.settle i result answer).Fair w)
    (h : w.act (.settle i result answer) = some w') : Kept w' := by
  dsimp only [World.act] at h
  split at h
  · next job hosting hat =>
    obtain ⟨hi, hh⟩ := World.hostedAt_eq_some hat
    split at h
    · next token htoken =>
      obtain ⟨hguard, heq⟩ := Option.ite_none_right_eq_some.1 h
      cases heq
      obtain ⟨hpending, hresult⟩ := Bool.and_eq_true_iff.1 hguard
      refine hw.settle hi hh htoken hpending (fun hsome => ?_) ?_
      · cases result with
        | none => cases hsome
        | some e => exact (Bool.and_eq_true_iff.1 (by simpa using hresult)).2
      · rintro rfl
        simpa [Action.Fair, hat] using hfair
    · cases h
  · cases h

theorem Kept.act_resume (hw : Kept w) (hfair : (Action.resume i answer delivered).Fair w)
    (h : w.act (.resume i answer delivered) = some w') : Kept w' := by
  dsimp only [World.act] at h
  split at h
  · next job hosting hat =>
    obtain ⟨hi, hh⟩ := World.hostedAt_eq_some hat
    obtain ⟨token, parent, own, hosted, kind⟩ := job
    split at h
    · next result c hanswer hkind =>
      cases hkind
      obtain ⟨hdelivered, hends⟩ : (delivered ∨ c.finished) ∧ w.EndsWell _ c := by
        simpa only [Action.Fair, hat] using hfair
      exact hw.act_over hi rfl hdelivered hends h
    · next result l hanswer hkind =>
      cases hkind
      obtain ⟨hended, heq⟩ := Option.ite_none_left_eq_some.1 h
      cases heq
      refine hw.resumeLaunch hi rfl hh hanswer (by simpa using hended) ?_
      simpa [Action.Fair, hat, hanswer] using hfair
    · cases h
  · cases h

theorem Kept.act_ran (hw : Kept w) {result : Option Ending}
    (hfair : (Action.ran i result answer delivered).Fair w)
    (h : w.act (.ran i result answer delivered) = some w') : Kept w' := by
  dsimp only [World.act] at h
  split at h
  · next job c hat =>
    obtain ⟨hi, hkind⟩ := World.childAt_eq_some hat
    obtain ⟨-, hover⟩ := Option.ite_none_right_eq_some.1 h
    obtain ⟨hdelivered, hends⟩ : (delivered ∨ c.finished) ∧ w.EndsWell job c := by
      simpa only [Action.Fair, hat] using hfair
    exact hw.act_over hi hkind hdelivered hends hover
  · cases h

theorem Kept.act_launched (hw : Kept w) {result : Option ℤ}
    (hfair : (Action.launched i result answer).Fair w)
    (h : w.act (.launched i result answer) = some w') : Kept w' := by
  dsimp only [World.act] at h
  split at h
  · next job l hat =>
    obtain ⟨hi, hkind⟩ := World.launchAt_eq_some hat
    obtain ⟨hguard, heq⟩ := Option.ite_none_right_eq_some.1 h
    cases heq
    obtain ⟨hhosting, hended⟩ := Bool.and_eq_true_iff.1 hguard
    refine hw.endLaunch hi hkind (by simpa using hhosting) (by simpa using hended) ?_
    simpa only [Action.Fair, hat] using hfair
  · cases h

theorem Kept.act_onHostRun (hw : Kept w) (hfair : (Action.onHostRun i).Fair w)
    (h : w.act (.onHostRun i) = some w') : Kept w' := by
  dsimp only [World.act] at h
  split at h
  · next job c hat =>
    obtain ⟨hi, hkind⟩ := World.childAt_eq_some hat
    obtain ⟨hguard, heq⟩ := Option.ite_none_right_eq_some.1 h
    cases heq
    have hfinished : ¬ c.finished := by simpa only [Action.Fair, hat] using hfair
    have hsound := (hw.soundAt hi).child c hkind
    have hguard : c.started = true ∧ job.hosting = none := by
      simp only [Bool.and_eq_true, Option.isNone_iff_eq_none] at hguard
      exact hguard.1
    refine hw.child hi hkind ⟨hsound.own, hsound.token, fun _ => hguard.1, ?_, ?_, ?_,
      hsound.thrown⟩ rfl rfl
    · simp [hguard.2]
    · simp
    · exact fun hf => absurd hf hfinished
  · cases h

theorem Kept.act_onHostRunRejected (hw : Kept w) {started endPosted : Option Bool}
    {exitCode : ℤ} (h : w.act (.onHostRunRejected i started endPosted exitCode) = some w') :
    Kept w' := by
  dsimp only [World.act] at h
  split at h
  · next job c hat =>
    obtain ⟨hi, hkind⟩ := World.childAt_eq_some hat
    have hsound := (hw.soundAt hi).child c hkind
    obtain ⟨hrun, hstate⟩ := Option.ite_none_right_eq_some.1 h
    split at hstate
    · obtain ⟨hreported, heq⟩ := Option.ite_none_left_eq_some.1 hstate
      cases heq
      have hunreported : ∀ o ∈ job.own, o.reported = false := by
        intro o ho
        simpa [Option.mem_def.1 ho] using hreported
      have hhosting : job.hosting = none := by
        simpa [hrun] using hsound.apart
      refine hw.child hi hkind ⟨hsound.own, hsound.token, ?_, fun _ => rfl, ?_, ?_,
        hsound.thrown⟩ rfl rfl
      · simp [hhosting]
      · intro o ho hr
        simp [hunreported o ho] at hr
      · simp [hhosting]
    · cases hstate
      exact hw
  · cases h

theorem Kept.act_kill (hw : Kept w) {signal : String}
    (h : w.act (.kill i signal delivered) = some w') : Kept w' := by
  dsimp only [World.act] at h
  split at h
  · next job c hat =>
    obtain ⟨hi, hkind⟩ := World.childAt_eq_some hat
    have hsound := (hw.soundAt hi).child c hkind
    split at h
    · cases h
      exact hw
    split at h
    · cases h
      exact hw
    split at h
    · cases h
      exact hw
    · cases h
      exact hw.child hi hkind ⟨hsound.own, hsound.token, hsound.begun, hsound.apart,
        hsound.hosted, hsound.ended, hsound.thrown⟩ rfl rfl
  · cases h

/-- A step after which no process is without its end keeps the books. -/
theorem Kept.act (hw : Kept w) {a : Action R} (hfair : a.Fair w) (h : w.act a = some w') :
    Kept w' := by
  cases a with
  | registerRunStreams name =>
    cases h
    refine hw.tables rfl rfl rfl (fun t ht => .inr ⟨ht, id⟩) (fun t ht => ?_) rfl
    rcases Finset.mem_insert.1 ht with rfl | ht
    · exact .inl (Finset.mem_insert_self _ _)
    · exact .inr ⟨ht, fun hopened => Finset.mem_insert_of_mem hopened⟩
  | installRunRegistry name registry =>
    cases h
    refine hw.tables rfl rfl rfl (fun t ht => ?_) (fun t ht => .inr ⟨ht, id⟩) rfl
    by_cases hname : t = .named name
    · exact .inl (hname ▸ Finset.mem_insert_self _ _)
    · refine .inr ⟨?_, fun hgiven => Finset.mem_insert_of_mem hgiven⟩
      simpa [World.Recorded, Function.update_of_ne hname] using ht
  | claimRunPid name pid =>
    cases h
    refine hw.tables rfl rfl rfl (fun t ht => ?_) (fun t ht => .inr ⟨ht, id⟩) rfl
    by_cases hname : t = .named name
    · exact .inl (hname ▸ Finset.mem_insert_self _ _)
    · refine .inr ⟨?_, fun hgiven => Finset.mem_insert_of_mem hgiven⟩
      simpa [World.Recorded, Function.update_of_ne hname] using ht
  | holdShellRun name =>
    cases h
    exact hw.tables rfl rfl rfl (fun t ht => .inr ⟨ht, id⟩) (fun t ht => .inr ⟨ht, id⟩) rfl
  | forgetRunPid name =>
    cases h
    refine hw.tables rfl rfl rfl (fun t ht => ?_) (fun t ht => .inr ⟨ht, id⟩) rfl
    obtain ⟨hne, hrecorded⟩ := World.recorded_forgotten rfl rfl ht
    exact .inr ⟨hrecorded, fun hgiven => Finset.mem_erase.2 ⟨hne, hgiven⟩⟩
  | releaseRunStreams name =>
    cases h
    refine hw.tables rfl rfl rfl (fun t ht => .inr ⟨ht, id⟩) (fun t ht => ?_) rfl
    have hne := Finset.ne_of_mem_erase ht
    exact .inr ⟨Finset.mem_of_mem_erase ht, fun ho => Finset.mem_erase.2 ⟨hne, ho⟩⟩
  | spawn q pid start =>
    obtain ⟨hfree, heq⟩ := Option.ite_none_right_eq_some.1 h
    cases heq
    exact hw.startChildRun hfree hfair
  | begin i pid accepted =>
    obtain rfl : accepted = true := hfair
    exact hw.act_begin h
  | launch run pid accepted early =>
    obtain ⟨rfl, hnamed⟩ : accepted = true ∧ _ := hfair
    exact hw.act_launch hnamed h
  | take i =>
    dsimp only [World.act] at h
    split at h
    · next job hosting hat =>
      obtain ⟨hi, hh⟩ := World.hostedAt_eq_some hat
      obtain ⟨-, heq⟩ := Option.ite_none_right_eq_some.1 h
      cases heq
      exact hw.take hi hh
    · cases h
  | report i e => exact hw.act_report h
  | settle i result answer => exact hw.act_settle hfair h
  | resume i answer delivered => exact hw.act_resume hfair h
  | ran i result answer delivered => exact hw.act_ran hfair h
  | launched i result answer => exact hw.act_launched hfair h
  | onHostRun i => exact hw.act_onHostRun hfair h
  | onHostRunRejected i started endPosted exitCode => exact hw.act_onHostRunRejected h
  | kill i signal delivered => exact hw.act_kill h
  | killed i answer =>
    dsimp only [World.act] at h
    split at h
    · next job c hat =>
      obtain ⟨hi, hkind⟩ := World.childAt_eq_some hat
      split at h
      · cases h
        exact hw.finish hi hkind (by simpa only [Action.Fair, hat] using hfair)
      · cases h
    · cases h
  | inputFailed i answer =>
    dsimp only [World.act] at h
    split at h
    · next job c hat =>
      obtain ⟨hi, hkind⟩ := World.childAt_eq_some hat
      cases h
      exact hw.finish hi hkind (by simpa only [Action.Fair, hat] using hfair)
    · cases h

/-! ## A run -/

def Job.settled (job : Job R) : Bool := job.kind.over && !job.pending

def World.Open (w : World R) (t : Token) : Prop :=
  ∃ job ∈ w.jobs, job.token = some t ∧ job.settled = false

/-- A job that is not settled holds a number: that of its own process, until it is over, or
of the process that its host's run forked, until that has settled. -/
def World.Holds (w : World R) (registry : R) (pid : ℕ) : Prop :=
  ∃ job ∈ w.jobs,
    (job.kind.over = false ∧ ∃ o ∈ job.own, o.home = registry ∧ o.pid = pid) ∨
    (job.pending = true ∧ ∃ h ∈ job.hosting, ∃ o ∈ h.own, o.home = registry ∧ o.pid = pid)

/-- Every process that was forked ends once, at the registry that numbered it, and is then
reaped once, and where a handle waits for it that is told the end that was reaped: what is
heard of a number is whole lives, unless a job holds the number and has not ended it. And
nothing is left in the tables of a run that no job is about: of its registry and number, if
no host gave them and has not forgotten them; of its streams, if no host gave them and has
not released them; of its descriptors. -/
structure Accounted (w : World R) : Prop where
  lives : ∀ registry pid, Whole (w.heard registry pid) ∨ w.Holds registry pid ∧
    ∃ past handle, Whole past ∧ (w.heard registry pid = past ++ [.allocate handle] ∨
      ∃ e, w.heard registry pid = past ++ [.allocate handle, .exit e])
  numbers : ∀ t, ¬ w.Open t → t ∉ w.given →
    w.runRegistries t = none ∧ w.pidsOfRuns t = none
  streams : ∀ t, ¬ w.Open t → t ∉ w.opened → t ∉ w.runStreams
  fds : ∀ t, ¬ w.Open t → ∀ fd, (t, fd) ∉ w.runFds

omit [DecidableEq R] in
theorem World.holds_of_held {p : ℕ × Bool} {h : Life.Held (R × ℕ)} (hp : w.held p = some h) :
    w.Holds h.key.1 h.key.2 := by
  obtain ⟨i, x⟩ := p
  obtain ⟨job, hi, hheld⟩ := Option.bind_eq_some_iff.1 hp
  refine ⟨job, List.mem_of_getElem? hi, ?_⟩
  cases x with
  | false =>
    obtain ⟨hover, hmap⟩ := Option.ite_none_left_eq_some.1 hheld
    obtain ⟨o, hown, rfl⟩ := Option.map_eq_some_iff.1 hmap
    exact .inl ⟨by simpa using hover, o, hown, rfl, rfl⟩
  | true =>
    obtain ⟨hosting, hh, hmap⟩ := Option.bind_eq_some_iff.1 hheld
    obtain ⟨hpending, hmap⟩ := Option.ite_none_right_eq_some.1 hmap
    obtain ⟨o, hown, rfl⟩ := Option.map_eq_some_iff.1 hmap
    exact .inr ⟨by simp [Job.pending, hh, hpending], hosting, hh, o, hown, rfl, rfl⟩

omit [DecidableEq R] in
theorem Covered.open {entry : Token → Prop} {given : Finset Token} {clears : Job R → Bool}
    (hc : Covered entry given clears w.jobs)
    (hclears : ∀ job : Job R, clears job = true → job.settled = false) {t : Token}
    (hopen : ¬ w.Open t) (hgiven : t ∉ given) : ¬ entry t := by
  intro ht
  rcases hc t ht with h | ⟨job, hjob, htoken, hjobs⟩
  · exact hgiven h
  · exact hopen ⟨job, hjob, htoken, hclears job hjobs⟩

omit [DecidableEq R] in
theorem Job.settled_of_numbers (h : job.numbers = true) : job.settled = false := by
  obtain ⟨token, parent, own, hosting, kind⟩ := job
  cases kind with
  | child c => simpa [Job.numbers, Job.settled, imp_iff_not_or] using h
  | launch l => cases hosting <;> simp_all [Job.numbers, Job.settled, Job.pending]

omit [DecidableEq R] in
theorem Job.settled_of_streams (h : job.streams = true) : job.settled = false := by
  obtain ⟨token, parent, own, hosting, kind⟩ := job
  cases kind <;> simp_all [Job.streams, Job.settled, Kind.over]

omit [DecidableEq R] in
theorem Job.settled_of_fds (h : job.fds = true) : job.settled = false := by
  obtain ⟨token, parent, own, hosting, kind⟩ := job
  cases kind <;> simp_all [Job.fds, Job.settled, Kind.over]

theorem Kept.accounted (hw : Kept w) : Accounted w where
  lives registry pid := by
    by_cases hheld : ∃ p h, w.held p = some h ∧ h.key = (registry, pid)
    · obtain ⟨p, h, hp, hkey⟩ := hheld
      have hholds : w.Holds registry pid := by
        simpa [hkey] using World.holds_of_held hp
      have hstage := hw.balanced.stage p h hp
      rw [hkey, Life.read_eq_some, Life.Held.stage] at hstage
      refine .inr ⟨hholds, ?_⟩
      split at hstage
      · obtain ⟨past, e, hpast, heq⟩ := hstage
        exact ⟨past, h.handle, hpast, .inr ⟨e, heq⟩⟩
      · obtain ⟨past, hpast, heq⟩ := hstage
        exact ⟨past, h.handle, hpast, .inl heq⟩
    · refine .inl (hw.balanced.whole fun p h hp hkey => hheld ⟨p, h, hp, hkey⟩)
  numbers t hopen hgiven := by
    have hentry := hw.numbers.open (fun _ => Job.settled_of_numbers) hopen hgiven
    simpa [World.Recorded, not_or] using hentry
  streams t hopen hopened := hw.streams.open (fun _ => Job.settled_of_streams) hopen hopened
  fds t hopen fd h := hw.fds.open (fun _ => Job.settled_of_fds) hopen (by simp) ⟨fd, h⟩

theorem kept_start (processRegistry : R) (initialPid host : Bool) (localToken : Option Token) :
    Kept (World.start processRegistry initialPid host localToken) where
  balanced := by
    have hheld : (World.start processRegistry initialPid host localToken).held =
        fun _ => none := rfl
    rw [hheld]
    exact Life.balanced_nil
  sound := by simp [World.start]
  numbers := by simp [Covered, World.Recorded, World.start]
  streams := by simp [Covered, World.start]
  fds := by simp [Covered, World.start]

theorem Accounted.read (hw : Accounted w) (registry : R) (pid : ℕ) :
    (Life.read (w.heard registry pid)).isSome := by
  rcases hw.lives registry pid with h | ⟨-, past, handle, hpast, h | ⟨e, h⟩⟩
  · rw [Life.read_of_whole h]
    rfl
  · have hof : (Life.Stage.running handle).Of (w.heard registry pid) := ⟨past, hpast, h⟩
    rw [hof.read]
    rfl
  · have hof : (Life.Stage.ended handle).Of (w.heard registry pid) := ⟨past, e, hpast, h⟩
    rw [hof.read]
    rfl

/-- A `node` that a kernel's shell runs forks a `node` of its own, and they end in this
order. -/
def childFirst : List (Action ℕ) :=
  [.registerRunStreams "sh", .installRunRegistry "sh" 1, .claimRunPid "sh" 5,
    .holdShellRun "sh", .launch (some (.named "sh")) 6 true false,
    .spawn ⟨some (.child 1), true, false, false, false, []⟩ 7 .accepted, .begin 1 9 true,
    .launch (some (.child 2)) 9 true false, .launched 2 (some 0) ⟨0, none⟩,
    .ran 1 (some ⟨0, none⟩) ⟨0, none⟩ true, .launched 0 (some 0) ⟨0, none⟩]

def parentFirst : List (Action ℕ) :=
  [.registerRunStreams "sh", .installRunRegistry "sh" 1, .claimRunPid "sh" 5,
    .holdShellRun "sh", .launch (some (.named "sh")) 6 true false,
    .spawn ⟨some (.child 1), true, false, false, false, []⟩ 7 .accepted, .begin 1 9 true,
    .launch (some (.child 2)) 9 true false, .launched 0 (some 0) ⟨0, none⟩,
    .launched 2 (some 0) ⟨0, none⟩, .ran 1 (some ⟨0, none⟩) ⟨0, none⟩ true]

end ForkedRuns

end Tabnode
