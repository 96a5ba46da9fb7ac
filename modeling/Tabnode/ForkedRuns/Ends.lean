import Tabnode.ForkedRuns.Books

/-!
# What is ended

The host's part in a job, and the ends of a child and of a launch, keep the books: the one
who is to end a process does, at the registry that numbered it, and reaps it; and what the
tables have of its run is cleared.
-/

namespace Tabnode

namespace ForkedRuns

open Function List Option

variable {R : Type*} {w : World R} {i : ℕ} {job : Job R}

namespace World

variable {token : Token}

theorem recorded_forgotten {v : World R} {t : Token}
    (hr : v.runRegistries = update w.runRegistries token none)
    (hp : v.pidsOfRuns = update w.pidsOfRuns token none) (h : v.Recorded t) :
    t ≠ token ∧ w.Recorded t := by
  rw [Recorded, hr, hp] at h
  by_cases ht : t = token
  · subst ht
    simp at h
  · exact ⟨ht, by simpa [Recorded, update_of_ne ht] using h⟩

/-- The registry that a run leads to depends on nothing else that is said. -/
theorem registryFor_of_eq {run : Option Token} {registry : R}
    (h : w.registryFor run = registry) (v : World R) (hr : v.runRegistries = w.runRegistries)
    (hp : v.processRegistry = w.processRegistry) : v.registryFor run = registry := by
  rw [← h, registryFor, registryFor, hr, hp]

/-! ## What the ends do -/

variable {c : ChildRun} {own : Owned R} {e a : Ending}

theorem finish_of_finished (h : c.finished = true) : w.finish i job c e a = w := by
  unfold finish
  split
  · rw [if_pos h]
  · rfl

theorem finish_eq (htoken : job.token = some token) (hown : job.own = some own)
    (hfinished : c.finished = false) (hhome : w.registryFor job.parent = own.home)
    (hended : (!c.started || (!job.hosting.isSome && !c.hostRun)) = !own.reported) :
    w.finish i job c e a =
      { w with
        jobs := w.jobs.set i { job with kind := .child { c with finished := true } }
        runRegistries := update w.runRegistries token none
        pidsOfRuns := update w.pidsOfRuns token none
        given := w.given.erase token
        runStreams := w.runStreams.erase token
        shellRuns := w.shellRuns.erase token
        hostedNodes := w.hostedNodes.erase token
        opened := w.opened.erase token
        runFds := w.runFds.filter fun p => p.1 ≠ token
        log := w.log ++ (Life.reaping own.reported true e a).map fun call =>
          ((own.home, own.pid), call) } := by
  have hreg := registryFor_of_eq hhome
  unfold finish
  rw [htoken, hown]
  dsimp only
  rw [hfinished, if_neg Bool.false_ne_true, hended]
  cases hreported : own.reported <;>
    simp [Life.reaping, exitRunProcess, reapRunProcess, say, forgetRunPid, hreg, setJob,
      releaseRunFds, releaseRunStreams]

theorem endHostedNode_eq {h : Hosting R} (token : Token) {result : Option Ending}
    (answer : Ending) (hhome : ∀ o ∈ h.own, o.home = w.processRegistry)
    (hreported : ∀ o ∈ h.own, o.reported = result.isSome) :
    ∃ outcome : Option Ending, outcome.isSome = result.isSome ∧
      w.endHostedNode token h result answer =
        ({ w with
            runRegistries := update w.runRegistries token none
            pidsOfRuns := update w.pidsOfRuns token none
            given := w.given.erase token
            log := w.log ++ h.own.toList.flatMap fun o =>
              (Life.reaping o.reported false .killed answer).map fun call =>
                ((o.home, o.pid), call) },
          { h with answer := some outcome }) := by
  have hnone : w.registryFor none = w.processRegistry := rfl
  obtain ⟨own, taken, _⟩ := h
  cases own with
  | none =>
    cases result with
    | none => exact ⟨none, rfl, by simp [endHostedNode, forgetRunPid]⟩
    | some e => exact ⟨some e, rfl, by simp [endHostedNode, forgetRunPid]⟩
  | some o =>
    have ho : o.home = w.processRegistry := hhome o rfl
    have hr : o.reported = result.isSome := hreported o rfl
    cases result with
    | none =>
      refine ⟨none, rfl, ?_⟩
      simp [endHostedNode, exitRunProcess, reapRunProcess, say, forgetRunPid, Life.reaping, ho,
        hr, registryFor]
    | some e =>
      refine ⟨some ⟨answer.code, answer.signal.or e.signal⟩, rfl, ?_⟩
      simp [endHostedNode, reapRunProcess, say, forgetRunPid, Life.reaping, ho, hr, registryFor]

theorem endLaunch_eq {l : LaunchRun} {token : Token} (result : Option ℤ) (answer : Ending)
    (htoken : job.token = some token) (hreaper : l.reaper.isSome = job.own.isSome)
    (hhere : ∀ o ∈ job.own, o.reported = false)
    (hfair : ∀ own ∈ job.own, ∀ reaper ∈ l.reaper,
      job.token.bind w.pidsOfRuns = some own.pid ∧ w.registryFor reaper = own.home) :
    w.endLaunch i job l result answer =
      { (if l.nested then w.releaseRunStreams token else w) with
        jobs := w.jobs.set i { job with kind := .launch { l with ended := true } }
        runRegistries := update w.runRegistries token none
        pidsOfRuns := update w.pidsOfRuns token none
        given := w.given.erase token
        log := w.log ++ job.own.toList.flatMap fun o =>
          (Life.reaping o.reported false (launchEnd result) answer).map fun call =>
            ((o.home, o.pid), call) } := by
  obtain ⟨_, parent, own, hosting, kind⟩ := job
  obtain ⟨nested, reaper, ended⟩ := l
  obtain rfl : _ = some token := htoken
  unfold endLaunch
  dsimp only
  cases own with
  | none =>
    obtain rfl : reaper = none := by simpa using hreaper
    cases nested <;> simp [forgetRunPid, releaseRunStreams, setJob]
  | some o =>
    obtain ⟨reaper, rfl⟩ := isSome_iff_exists.1 (hreaper.trans rfl)
    obtain ⟨hpid, hhome⟩ := hfair o rfl reaper rfl
    have hr : o.reported = false := hhere o rfl
    have hfound : w.pidsOfRuns token = some o.pid := hpid
    have hreg := registryFor_of_eq hhome
    rw [hfound]
    cases nested <;>
      simp [reapBy, exitRunProcess, reapRunProcess, hreg, hr, Life.reaping, say, forgetRunPid,
        releaseRunStreams, setJob]

theorem resumeLaunch_eq {l : LaunchRun} {token : Token} {o : Owned R}
    {result : Option Ending} (answer : Ending) (hnested : l.nested = true)
    (htoken : job.token = some token) (hown : job.own = some o)
    (hhome : w.registryFor job.parent = o.home) (hreported : o.reported = result.isSome) :
    w.resumeLaunch i job l result answer =
      { w.releaseRunStreams token with
        jobs := w.jobs.set i { job with kind := .launch { l with ended := true } }
        log := w.log ++ (Life.reaping o.reported false .killed answer).map fun call =>
          ((o.home, o.pid), call) } := by
  have hreg := registryFor_of_eq hhome
  rw [resumeLaunch, hnested, htoken, hown, hreported]
  cases result with
  | none =>
    simp [reapBy, exitRunProcess, reapRunProcess, hreg, Life.reaping, say, releaseRunStreams,
      setJob]
  | some e =>
    simp [reapBy, reapRunProcess, hreg, Life.reaping, say, releaseRunStreams, setJob]

end World

variable [DecidableEq R]

/-! ## The end of a child -/

variable {e answer : Ending}

theorem Kept.finish (hw : Kept w) {c : ChildRun} (hi : w.jobs[i]? = some job)
    (hkind : job.kind = .child c) (hends : w.EndsWell job c) :
    Kept (w.finish i job c e answer) := by
  have hsound := (hw.soundAt hi).child c hkind
  cases hfinished : c.finished with
  | true =>
    rw [World.finish_of_finished hfinished]
    exact hw
  | false =>
    obtain ⟨token, htoken⟩ := isSome_iff_exists.1 hsound.token
    obtain ⟨own, hown⟩ := isSome_iff_exists.1 hsound.own
    obtain ⟨hhome, hreported⟩ := (hends.resolve_left (by simp [hfinished])) own hown
    have hthrown : c.thrown = false := by
      cases hthrown : c.thrown with
      | false => rfl
      | true => exact absurd (hsound.thrown hthrown) (by simp [hfinished])
    have hended : (!c.started || (!job.hosting.isSome && !c.hostRun)) = !own.reported := by
      have hhosted := hsound.hosted own hown
      have hbegun := hsound.begun
      cases hs : c.started <;> cases hh : job.hosting.isSome <;> cases hr : c.hostRun <;>
        cases ho : own.reported <;> simp_all
    rw [World.finish_eq htoken hown hfinished hhome hended]
    have hclears : ∀ clears : Job R → Bool, ∀ t, Clears clears job t → t = token :=
      fun _ t h => Option.some.inj (h.1.symm.trans htoken)
    refine hw.set hi rfl rfl ?_ ?_ ?_ ?_ ?_
    · refine .reap (x := false) (h := ⟨(own.home, own.pid), true, own.reported⟩) ?_ ?_ ?_
      · simp [Job.held, hkind, hown, Kind.over, Kind.handle, hfinished, hthrown]
      · simp [Job.held, Kind.over]
      · simp [Job.held]
    · refine ⟨(hw.soundAt hi).home, ?_, by simp⟩
      rintro c' ⟨⟩
      refine ⟨hsound.own, hsound.token, hsound.begun, hsound.apart, hsound.hosted, ?_,
        fun _ => rfl⟩
      intro _ h o ho
      cases hown.symm.trans ho
      exact hreported ⟨hsound.begun h, h⟩
    · exact .clear (fun t => World.recorded_forgotten rfl rfl)
        (fun t hne h => Finset.mem_erase.2 ⟨hne, h⟩) (hclears _)
    · exact .clear (fun t h => ⟨Finset.ne_of_mem_erase h, Finset.mem_of_mem_erase h⟩)
        (fun t hne h => Finset.mem_erase.2 ⟨hne, h⟩) (hclears _)
    · refine .clear (fun t ⟨fd, h⟩ => ?_) (fun t _ h => h) (hclears _)
      have hmem := Finset.mem_filter.1 h
      exact ⟨by simpa using hmem.2, fd, hmem.1⟩

/-! ## The host's part -/

variable {h : Hosting R}

theorem Kept.take (hw : Kept w) (hi : w.jobs[i]? = some job) (hh : job.hosting = some h) :
    Kept (w.setJob i { job with hosting := some { h with taken := true } }) := by
  have hs := hw.soundAt hi
  refine hw.quiet hi ⟨?_, fun c hc => ?_, fun l hl => ?_⟩ rfl ?_ ?_ ?_ ?_
  · rintro _ ⟨⟩
    exact hs.home h hh
  · obtain ⟨h1, h2, h3, h4, h5, h6, h7⟩ := hs.child c hc
    refine ⟨h1, h2, ?_, ?_, ?_, ?_, h7⟩ <;> simp_all
  · obtain ⟨h1, h2, h3, h4, h5, h6, h7, h8⟩ := hs.launch l hl
    refine ⟨h1, h2, h3, ?_, ?_, ?_, ?_, ?_⟩ <;> simp_all [Job.pending, Hosting.pending]
  · funext x
    cases x <;> simp [Job.held, hh, Hosting.pending]
  · simp [Job.numbers, Job.pending, hh, Hosting.pending]
  · simp [Job.streams]
  · simp [Job.fds]

theorem Kept.exit (hw : Kept w) (handle : Bool) {a b : Job R} {own : Owned R} {x : Bool}
    (hi : w.jobs[i]? = some a) (hb : b.Sound w.processRegistry)
    (ha : a.held x = some ⟨(own.home, own.pid), handle, false⟩)
    (hx : b.held x = some ⟨(own.home, own.pid), handle, true⟩)
    (hsame : ∀ y, y ≠ x → b.held y = a.held y) (htoken : b.token = a.token)
    (hnumbers : a.numbers = true → b.numbers = true)
    (hstreams : a.streams = true → b.streams = true) (hfds : a.fds = true → b.fds = true) :
    Kept ((w.setJob i b).say own.home own.pid (.exit e)) := by
  refine hw.set hi rfl rfl (.exit ha hx hsame) hb ?_ ?_ ?_
  · exact .same fun t h => ⟨htoken.trans h.1, hnumbers h.2⟩
  · exact .same fun t h => ⟨htoken.trans h.1, hstreams h.2⟩
  · exact .same fun t h => ⟨htoken.trans h.1, hfds h.2⟩

theorem Kept.reportForked (hw : Kept w) {o : Owned R} (hi : w.jobs[i]? = some job)
    (hh : job.hosting = some h) (hpending : h.pending = true) (hown : h.own = some o)
    (hreported : o.reported = false) : Kept ((w.setJob i { job with
      hosting := some { h with own := some { o with reported := true } } }).say
      o.home o.pid (.exit e)) := by
  have hs := hw.soundAt hi
  have hanswer : h.answer = none := by simpa [Hosting.pending] using hpending
  refine hw.exit false (x := true) hi ⟨?_, fun c hc => ?_, fun l hl => ?_⟩ ?_ ?_ ?_
    rfl ?_ ?_ ?_
  · rintro _ ⟨⟩ _ ⟨⟩
    exact hs.home h hh o hown
  · obtain ⟨h1, h2, h3, h4, h5, h6, h7⟩ := hs.child c hc
    refine ⟨h1, h2, ?_, ?_, ?_, ?_, h7⟩ <;> simp_all
  · obtain ⟨h1, h2, h3, h4, h5, h6, h7, h8⟩ := hs.launch l hl
    refine ⟨h1, h2, h3, ?_, ?_, ?_, ?_, ?_⟩ <;> simp_all [Job.pending, Hosting.pending]
  · simp [Job.held, hh, hpending, hown, hreported]
  · simp [Job.held, Hosting.pending, hanswer]
  · simp [Job.held]
  · simp [Job.numbers, Job.pending, hh, Hosting.pending]
  · simp [Job.streams]
  · simp [Job.fds]

/-- A host reports the end of the process that was numbered for a job. -/
theorem Kept.reportOwn (hw : Kept w) {o : Owned R} (hi : w.jobs[i]? = some job)
    (hown : job.own = some o) (hreported : o.reported = false)
    (hhosted : (∃ h, job.hosting = some h ∧ h.pending = true ∧ h.own = none) ∨
      job.hosting = none ∧ ∃ c, job.kind = .child c ∧ c.hostRun = true) :
    Kept ((w.setJob i { job with own := some { o with reported := true } }).say
      o.home o.pid (.exit e)) := by
  have hs := hw.soundAt hi
  -- the process is not reaped: a host that has it has not reported its end
  have hover : job.kind.over = false := by
    match hkind : job.kind with
    | .child c =>
      have hc := hs.child c hkind
      have hsome : job.hosting.isSome ∨ c.hostRun := by
        rcases hhosted with ⟨h, hh, -⟩ | ⟨-, c', hc', hrun⟩
        · simp [hh]
        · cases hkind.symm.trans hc'
          exact .inr hrun
      have hfinished : ¬ c.finished := fun hf => by
        simpa [hreported] using hc.ended hf hsome o hown
      have hthrown : ¬ c.thrown := fun ht => hfinished (hc.thrown ht)
      simp_all [Kind.over]
    | .launch l =>
      rcases hhosted with ⟨h, hh, hpending, -⟩ | ⟨-, c, hc, -⟩
      · have hended := (hs.launch l hkind).ended
        simpa [Kind.over, Job.pending, hh, hpending] using hended
      · cases hkind.symm.trans hc
  refine hw.exit job.kind.handle (x := false) hi
    ⟨hs.home, fun c hc => ?_, fun l hl => ?_⟩ ?_ ?_ ?_ rfl ?_ ?_ ?_
  · obtain ⟨h1, h2, h3, h4, h5, h6, h7⟩ := hs.child c hc
    refine ⟨rfl, h2, h3, h4, ?_, ?_, h7⟩
    · rintro _ ⟨⟩ -
      rcases hhosted with ⟨h, hh, -⟩ | ⟨-, c', hc', hrun⟩
      · simp [hh]
      · cases hc.symm.trans hc'
        exact .inr hrun
    · rintro - - _ ⟨⟩
      rfl
  · obtain ⟨h1, h2, h3, h4, h5, h6, h7, h8⟩ := hs.launch l hl
    rcases hhosted with ⟨h, hh, hpending, hnone⟩ | ⟨-, c, hc, -⟩
    · refine ⟨?_, ?_, ?_, ?_, ?_, ?_, ?_, h8⟩ <;> simp_all [Hosting.pending]
    · cases hl.symm.trans hc
  · simp [Job.held, hover, hown, hreported]
  · simp [Job.held, hover]
  · simp [Job.held]
  · simp [Job.numbers, Job.pending]
  · simp [Job.streams]
  · simp [Job.fds]

theorem Kept.settle (hw : Kept w) {token : Token} {result : Option Ending}
    (hi : w.jobs[i]? = some job) (hh : job.hosting = some h) (htoken : job.token = some token)
    (hpending : h.pending = true) (hresult : result.isSome → job.reported h)
    (hfair : result = none → ∀ own ∈ h.own, own.reported = false) :
    Kept ((w.endHostedNode token h result answer).1.setJob i
      { job with hosting := some (w.endHostedNode token h result answer).2 }) := by
  have hs := hw.soundAt hi
  have hreported : ∀ o ∈ h.own, o.reported = result.isSome := by
    intro o ho
    cases result with
    | none => exact hfair rfl o ho
    | some e =>
      have hall := hresult rfl
      rw [Job.reported, ho, some_or] at hall
      exact hall
  obtain ⟨outcome, houtcome, heq⟩ := World.endHostedNode_eq token answer (hs.home h hh) hreported
  rw [heq]
  have hclears : ∀ clears : Job R → Bool, ∀ t, Clears clears job t → t = token :=
    fun _ t h => Option.some.inj (h.1.symm.trans htoken)
  refine hw.set hi rfl rfl ?_ ⟨?_, fun c hc => ?_, fun l hl => ?_⟩ ?_ ?_ ?_
  · cases hown : h.own with
    | none =>
      simp only [toList_none, flatMap_nil, append_nil]
      refine .nothing ?_
      funext x
      cases x <;> simp [Job.held, hh, hown, Hosting.pending]
    | some o =>
      simp only [toList_some, flatMap_singleton]
      refine .reap (x := true) (h := ⟨(o.home, o.pid), false, o.reported⟩) ?_ ?_ ?_
      · simp [Job.held, hh, hpending, hown]
      · simp [Job.held, Hosting.pending]
      · simp [Job.held]
  · rintro _ ⟨⟩
    exact hs.home h hh
  · obtain ⟨h1, h2, h3, h4, h5, h6, h7⟩ := hs.child c hc
    refine ⟨h1, h2, ?_, ?_, ?_, ?_, h7⟩ <;> simp_all
  · obtain ⟨h1, h2, h3, h4, h5, h6, h7, h8⟩ := hs.launch l hl
    refine ⟨h1, h2, h3, ?_, ?_, ?_, ?_, ?_⟩
    · simp_all
    · simp
    · rintro _ ⟨⟩
      exact h6 h hh
    · rintro _ ⟨⟩ e he o ho
      have hsome : result.isSome = true := by
        rw [← houtcome, Option.some.inj he]
        rfl
      have hown : job.own = some o := ho
      have hall := hresult hsome
      rw [Job.reported, h6 h hh (by simp [hown]), none_or, hown] at hall
      exact hall
    · simp [Job.pending, Hosting.pending]
  · exact .clear (fun t => World.recorded_forgotten rfl rfl)
      (fun t hne h => Finset.mem_erase.2 ⟨hne, h⟩) (hclears _)
  · exact .same fun t h => ⟨h.1, h.2⟩
  · exact .same fun t h => ⟨h.1, h.2⟩

/-! ## The end of a launch -/

theorem Kept.endLaunch (hw : Kept w) {l : LaunchRun} {result : Option ℤ}
    (hi : w.jobs[i]? = some job) (hkind : job.kind = .launch l) (hhosting : job.hosting = none)
    (hended : l.ended = false) (hfair : ∀ own ∈ job.own, ∀ reaper ∈ l.reaper,
      job.token.bind w.pidsOfRuns = some own.pid ∧ w.registryFor reaper = own.home) :
    Kept (w.endLaunch i job l result answer) := by
  have hs := hw.soundAt hi
  have hl := hs.launch l hkind
  have hthere : ∀ o ∈ job.own, o.reported = false := hl.here hhosting
  have hsound : Job.Sound w.processRegistry
      { job with kind := .launch { l with ended := true } } := by
    refine ⟨hs.home, by simp, ?_⟩
    rintro _ ⟨⟩
    exact ⟨hl.reaper, hl.token, hl.nested, hl.alone, hl.here, hl.unforked, hl.answered,
      fun _ => by simp [Job.pending, hhosting]⟩
  cases htoken : job.token with
  | none =>
    have hown : job.own = none := by
      simpa [htoken] using hl.token
    have hclears : ∀ (clears : Job R → Bool) (t : Token), ¬ Clears clears job t :=
      fun _ t h => by simpa [htoken] using h.1
    rw [World.endLaunch, htoken]
    refine hw.set hi rfl rfl (.nothing ?_) (htoken ▸ hsound) ?_ ?_ ?_
    · funext x
      cases x <;> simp [Job.held, hown, hhosting]
    · exact .same fun t h => absurd h (hclears _ t)
    · exact .same fun t h => absurd h (hclears _ t)
    · exact .same fun t h => absurd h (hclears _ t)
  | some token =>
    rw [World.endLaunch_eq result answer htoken hl.reaper hthere hfair]
    have hclears : ∀ clears : Job R → Bool, ∀ t, Clears clears job t → t = token :=
      fun _ t h => Option.some.inj (h.1.symm.trans htoken)
    refine hw.set hi rfl ?_ ?_ hsound ?_ ?_ ?_
    · cases l.nested <;> rfl
    · dsimp only
      cases hown : job.own with
      | none =>
        simp only [toList_none, flatMap_nil, append_nil]
        refine .nothing ?_
        funext x
        cases x <;> simp [Job.held, hown, hhosting]
      | some o =>
        simp only [toList_some, flatMap_singleton]
        refine .reap (x := false) (h := ⟨(o.home, o.pid), false, o.reported⟩) ?_ ?_ ?_
        · simp [Job.held, hkind, Kind.over, Kind.handle, hended, hown]
        · simp [Job.held, Kind.over]
        · simp [Job.held, hhosting]
    · exact .clear (fun t => World.recorded_forgotten rfl rfl)
        (fun t hne h => Finset.mem_erase.2 ⟨hne, h⟩) (hclears _)
    · cases hnested : l.nested with
      | true =>
        exact .clear (fun t h => ⟨Finset.ne_of_mem_erase h, Finset.mem_of_mem_erase h⟩)
          (fun t hne h => Finset.mem_erase.2 ⟨hne, h⟩) (hclears _)
      | false => exact .same fun t h => by simpa [Clears, Job.streams, hkind, hnested] using h.2
    · cases l.nested <;> exact .same fun t h => by simpa [Clears, Job.fds, hkind] using h.2

theorem Kept.resumeLaunch (hw : Kept w) {l : LaunchRun} {result : Option Ending}
    (hi : w.jobs[i]? = some job) (hkind : job.kind = .launch l) (hh : job.hosting = some h)
    (hanswer : h.answer = some result) (hended : l.ended = false) (hfair : l.nested → ∀ o ∈ job.own,
      w.registryFor job.parent = o.home ∧ (result = none → o.reported = false)) :
    Kept (w.resumeLaunch i job l result answer) := by
  have hs := hw.soundAt hi
  have hl := hs.launch l hkind
  have hpending : h.pending = false := by simp [Hosting.pending, hanswer]
  have hsound : Job.Sound w.processRegistry
      { job with kind := .launch { l with ended := true } } := by
    refine ⟨hs.home, by simp, ?_⟩
    rintro _ ⟨⟩
    exact ⟨hl.reaper, hl.token, hl.nested, hl.alone, hl.here, hl.unforked, hl.answered,
      fun _ => by simp [Job.pending, hh, hpending]⟩
  cases hnested : l.nested with
  | false =>
    have hown : job.own = none := by
      simpa [hh, hnested] using hl.alone
    have heq : w.resumeLaunch i job l result answer =
        w.setJob i { job with kind := .launch { l with ended := true } } := by
      rw [World.resumeLaunch, hnested]
    rw [heq]
    refine hw.quiet hi hsound rfl ?_ ?_ ?_ ?_
    · funext x
      cases x <;> simp [Job.held, hown, hkind, Kind.over, Kind.handle]
    · simp [Job.numbers, Job.pending, hkind, hh, hpending]
    · simp [Job.streams, hkind, hnested]
    · simp [Job.fds, hkind]
  | true =>
    obtain ⟨o, hown⟩ := isSome_iff_exists.1 (hl.nested hnested)
    obtain ⟨token, htoken⟩ := isSome_iff_exists.1 (hl.token (hl.nested hnested))
    obtain ⟨hhome, hfailed⟩ := hfair hnested o hown
    have hreported : o.reported = result.isSome := by
      cases result with
      | none => exact hfailed rfl
      | some e => exact hl.answered h hh e hanswer o hown
    rw [World.resumeLaunch_eq answer hnested htoken hown hhome hreported]
    have hclears : ∀ clears : Job R → Bool, ∀ t, Clears clears job t → t = token :=
      fun _ t h => Option.some.inj (h.1.symm.trans htoken)
    refine hw.set hi rfl rfl ?_ hsound ?_ ?_ ?_
    · refine .reap (x := false) (h := ⟨(o.home, o.pid), false, o.reported⟩) ?_ ?_ ?_
      · simp [Job.held, hkind, Kind.over, Kind.handle, hended, hown]
      · simp [Job.held, Kind.over]
      · simp [Job.held]
    · exact .same fun t h => by simpa [Clears, Job.numbers, Job.pending, hkind, hh, hpending] using h.2
    · exact .clear (fun t h => ⟨Finset.ne_of_mem_erase h, Finset.mem_of_mem_erase h⟩)
        (fun t hne h => Finset.mem_erase.2 ⟨hne, h⟩) (hclears _)
    · exact .same fun t h => by simpa [Clears, Job.fds, hkind] using h.2

end ForkedRuns

end Tabnode
