import Tabnode.ForkedRuns.Books

/-!
# What is started

The start of a child, its beginning, and the start of a launch keep the books: what is
numbered is held by the job that is begun, and its run's entries are that job's to clear.
-/

namespace Tabnode

namespace ForkedRuns

open Life (Call)

variable {R : Type*} [DecidableEq R] {w : World R} {i : ℕ} {job : Job R}

/-! ## The tables after a call -/

namespace World

variable {token : Token}

theorem recorded_numbered (pid : ℕ) (parent : Option Token)
    (accepted : Bool) {v : World R} {t : Token}
    (hr : v.runRegistries = (w.setRunPid token pid parent accepted).runRegistries)
    (hp : v.pidsOfRuns = (w.setRunPid token pid parent accepted).pidsOfRuns)
    (h : v.Recorded t) : t = token ∨ w.Recorded t := by
  rw [Recorded, hr, hp] at h
  by_cases ht : t = token
  · exact .inl ht
  · dsimp only [setRunPid] at h
    split at h <;> split at h <;>
      exact .inr (by simpa [Recorded, Function.update_of_ne ht] using h)

end World

/-! ## The start of a child -/

theorem World.startChildRun_eq {q : RunRequest} (pid : ℕ) (h : w.refusesSpawn q = false) :
    ∃ shells, w.startChildRun q pid .accepted =
      { w with
        nextChildRun := w.nextChildRun + 1
        runRegistries :=
          (w.setRunPid (.child w.nextChildRun) pid q.owner true).runRegistries
        pidsOfRuns := (w.setRunPid (.child w.nextChildRun) pid q.owner true).pidsOfRuns
        shellRuns := shells
        runStreams := insert (.child w.nextChildRun) w.runStreams
        runFds := w.runFds ∪ (q.fds.map fun fd => (.child w.nextChildRun, fd)).toFinset
        log := w.log ++ [((w.registryFor q.owner, pid), .allocate true)]
        jobs := w.jobs ++ [⟨some (.child w.nextChildRun), q.owner,
          some ⟨w.registryFor q.owner, pid, false⟩, none,
          .child ⟨w.planOf q, false, false, false, none, none, false⟩⟩] } := by
  rw [startChildRun, if_neg (by simp [h])]
  dsimp only
  rw [if_neg (by simp)]
  split <;> exact ⟨_, rfl⟩

variable {pid : ℕ}

theorem Kept.startChildRun (hw : Kept w) {q : RunRequest} {start : Start}
    (hfree : (w.refusesSpawn q || w.Free (w.registryFor q.owner) pid) = true)
    (hfair : w.refusesSpawn q = true ∨ start = .accepted) : Kept (w.startChildRun q pid start) := by
  cases hrefuses : w.refusesSpawn q with
  | true =>
    rw [World.startChildRun, if_pos hrefuses]
    exact hw
  | false =>
    have hpid : w.Free (w.registryFor q.owner) pid := by simpa [hrefuses] using hfree
    obtain rfl : start = .accepted := by simpa [hrefuses] using hfair
    obtain ⟨shells, heq⟩ := World.startChildRun_eq pid hrefuses
    rw [heq]
    refine hw.push rfl rfl ?_ ?_ ?_ ?_ ?_
    · refine .allocate (x := false) hpid rfl rfl ?_
      simp [Job.held]
    · refine ⟨by simp, ?_, by simp⟩
      rintro c ⟨⟩
      exact ⟨rfl, rfl, by simp, by simp, by simp, by simp, by simp⟩
    · exact .make (fun t => World.recorded_numbered pid q.owner true rfl rfl)
        ⟨rfl, rfl⟩ (by simp)
    · exact .make (fun t h => Finset.mem_insert.1 h) ⟨rfl, rfl⟩ (by simp)
    · refine .make (fun t ⟨fd, h⟩ => ?_) ⟨rfl, rfl⟩ (by simp)
      rcases Finset.mem_union.1 h with h | h
      · exact .inr ⟨fd, h⟩
      · simp at h
        exact .inl h.2.symm

/-! ## A job's run is given to the process host -/

theorem Kept.begin (hw : Kept w) {c : ChildRun} {token : Token} (hi : w.jobs[i]? = some job)
    (hkind : job.kind = .child c) (htoken : job.token = some token)
    (hfree : w.Free w.processRegistry pid) : Kept (w.begin i job c token pid true) := by
  have hsound := (hw.soundAt hi).child c hkind
  unfold World.begin
  split
  · exact hw
  rename_i hbegun
  have hstarted : c.started = false := by simp_all
  have hfinished : c.finished = false := by simp_all
  have hidle : ¬(job.hosting.isSome ∨ c.hostRun) := fun h => by
    simpa [hstarted] using hsound.begun h
  have hhosting : job.hosting = none := by
    simpa using fun h => hidle (.inl (Option.isSome_iff_ne_none.2 h))
  have hhostRun : c.hostRun = false := by
    simpa using fun h => hidle (.inr h)
  have hreported : ∀ o ∈ job.own, o.reported = false := fun o ho => by
    simpa using fun h => hidle (hsound.hosted o ho h)
  -- whatever the host's part, the child is sound once it has begun
  have hbegan : ∀ hosting : Option (Hosting R),
      ChildSound { job with hosting := hosting, kind := .child { c with started := true } }
        { c with started := true } := by
    intro hosting
    refine ⟨hsound.own, hsound.token, fun _ => rfl, fun _ => hhostRun, ?_, ?_, hsound.thrown⟩
    · intro o ho h
      simp [hreported o ho] at h
    · simp [hfinished]
  dsimp only
  split
  · rw [World.runHostedNode]
    split
    · refine hw.set hi rfl rfl ?_ ?_ ?_ ?_ ?_
      · refine .allocate (x := true) hfree ?_ rfl ?_
        · simp [Job.held, hhosting]
        · simp [Job.held, hkind, Kind.over, Kind.handle]
      · refine ⟨?_, ?_, by simp⟩
        · rintro _ ⟨⟩ _ ⟨⟩
          rfl
        · rintro _ ⟨⟩
          exact hbegan _
      · refine .make (fun t => World.recorded_numbered pid none true rfl rfl) ⟨htoken, ?_⟩ ?_
        · simp [Job.numbers, Job.pending, Hosting.pending]
        · exact fun t h => ⟨h.1, by simp [Job.numbers, Job.pending, Hosting.pending]⟩
      · exact .same fun t h => ⟨h.1, by simpa [Job.streams, hkind, Kind.over] using h.2⟩
      · exact .same fun t h => ⟨h.1, by simpa [Job.fds, hkind, Kind.over] using h.2⟩
    · refine hw.quiet hi ?_ rfl ?_ ?_ ?_ ?_
      · refine ⟨?_, ?_, by simp⟩
        · rintro _ ⟨⟩ _ ⟨⟩
        · rintro _ ⟨⟩
          exact hbegan _
      · funext x
        cases x <;> simp [Job.held, hkind, hhosting, Kind.over, Kind.handle]
      · simp [Job.numbers, Job.pending, Hosting.pending]
      · simp [Job.streams, hkind, Kind.over]
      · simp [Job.fds, hkind, Kind.over]
  · refine hw.quiet hi ?_ rfl ?_ ?_ ?_ ?_
    · refine ⟨(hw.soundAt hi).home, ?_, by simp⟩
      rintro _ ⟨⟩
      exact hbegan _
    · funext x
      cases x <;> simp [Job.held, hkind, Kind.over, Kind.handle]
    · simp [Job.numbers, Job.pending, hkind, Kind.over]
    · simp [Job.streams, hkind, Kind.over]
    · simp [Job.fds, hkind, Kind.over]

/-! ## The start of a launch -/

variable {run : Option Token}

theorem Kept.pushIdle (hw : Kept w) {parent : Option Token} :
    Kept (w.push ⟨run, parent, none, none, .launch ⟨false, none, false⟩⟩) := by
  refine hw.push rfl rfl (.nothing ?_) ⟨by simp, by simp, ?_⟩ (.same (by simp))
    (.same (by simp)) (.same (by simp))
  · funext x
    cases x <;> rfl
  · rintro _ ⟨⟩
    exact ⟨rfl, by simp, by simp, by simp, by simp, by simp, by simp, by simp⟩

variable {early : Bool}

theorem Kept.launchRun (hw : Kept w) (hfree : w.Free w.processRegistry pid)
    (hfair : run.isSome ∨ early ∨ w.initialPid ∨ w.nodeProcessHostInstalled) :
    Kept (w.launchRun run pid true early) := by
  unfold World.launchRun
  dsimp only
  split
  · exact hw.pushIdle
  rename_i hearly
  match run with
  | none =>
    dsimp only
    rw [if_pos (by simp_all)]
    exact hw.pushIdle
  | some token =>
    dsimp only
    split
    · rw [World.runHostedNode]
      dsimp only
      split
      · refine hw.push rfl rfl ?_ ?_ ?_ (.same (by simp)) (.same (by simp))
        · refine .allocate (x := true) hfree rfl rfl ?_
          simp [Job.held]
        · refine ⟨?_, by simp, ?_⟩
          · rintro _ ⟨⟩ _ ⟨⟩
            rfl
          · rintro _ ⟨⟩
            exact ⟨rfl, by simp, by simp, by simp, by simp, by simp, by simp, by simp⟩
        · exact .make (fun t => World.recorded_numbered pid none true rfl rfl) ⟨rfl, rfl⟩
            (by simp)
      · refine hw.push rfl rfl (.nothing ?_) ⟨?_, by simp, ?_⟩ (.same (by simp))
          (.same (by simp)) (.same (by simp))
        · funext x
          cases x <;> rfl
        · rintro _ ⟨⟩ _ ⟨⟩
        · rintro _ ⟨⟩
          exact ⟨rfl, by simp, by simp, by simp, by simp, by simp, by simp, by simp⟩
    · split
      · refine hw.push rfl rfl ?_ ⟨by simp, by simp, ?_⟩ ?_ (.same (by simp)) (.same (by simp))
        · refine .allocate (x := false) hfree rfl rfl ?_
          simp [Job.held]
        · rintro _ ⟨⟩
          exact ⟨rfl, by simp, by simp, by simp, by simp, by simp, by simp, by simp⟩
        · exact .make (fun t => World.recorded_numbered pid none true rfl rfl) ⟨rfl, rfl⟩
            (by simp)
      · exact hw.pushIdle

theorem World.launchNested_eq (parent : Token) (pid : ℕ) (early : Bool) :
    ∃ streams : Finset Token, ∃ hosting : Option (Hosting R),
      (∀ t ∈ streams, t = .child w.nextChildRun ∨ t ∈ w.runStreams) ∧
      (∀ h ∈ hosting, h.own = none ∧ h.answer = none) ∧
      w.launchNested parent pid true early =
        { w with
          nextChildRun := w.nextChildRun + 1
          runRegistries :=
            (w.setRunPid (.child w.nextChildRun) pid (some parent) true).runRegistries
          pidsOfRuns := (w.setRunPid (.child w.nextChildRun) pid (some parent) true).pidsOfRuns
          runStreams := streams
          log := w.log ++ [((w.registryFor (some parent), pid), .allocate false)]
          jobs := w.jobs ++ [⟨some (.child w.nextChildRun), some parent,
            some ⟨w.registryFor (some parent), pid, false⟩, hosting,
            .launch ⟨true, some (some parent), false⟩⟩] } := by
  have hstreams : ∀ t ∈ insert (Token.child w.nextChildRun) w.runStreams,
      t = .child w.nextChildRun ∨ t ∈ w.runStreams := fun t => Finset.mem_insert.1
  have hnumbered : ∀ v : World R, v.pidsOfRuns (.child w.nextChildRun) = some pid →
      v.runHostedNode (.child w.nextChildRun) pid true = (v, ⟨none, false, none⟩) := by
    intro v hv
    rw [runHostedNode, if_neg (by simp [hv])]
  unfold launchNested
  dsimp only
  rw [if_neg (by simp)]
  split
  · split
    · rw [hnumbered _ (by simp [registerRunStreams, setRunPid])]
      exact ⟨_, some ⟨none, false, none⟩, hstreams, by simp, rfl⟩
    · exact ⟨_, none, hstreams, by simp, rfl⟩
  · split
    · rw [hnumbered _ (by simp [setRunPid])]
      exact ⟨_, some ⟨none, false, none⟩, fun t h => .inr h, by simp, rfl⟩
    · exact ⟨_, none, fun t h => .inr h, by simp, rfl⟩

theorem Kept.launchNested (hw : Kept w) {parent : Token}
    (hfree : w.Free (w.registryFor (some parent)) pid) :
    Kept (w.launchNested parent pid true early) := by
  obtain ⟨streams, hosting, hstreams, hhosting, heq⟩ :=
    World.launchNested_eq (w := w) parent pid early
  rw [heq]
  refine hw.push rfl rfl ?_ ⟨?_, by simp, ?_⟩ ?_ ?_ (.same (by simp))
  · refine .allocate (x := false) hfree rfl rfl ?_
    intro x hx
    obtain rfl : x = true := by simpa using hx
    cases hosting with
    | none => rfl
    | some h => simp [Job.held, (hhosting h rfl).1]
  · intro h hh o ho
    rw [(hhosting h hh).1] at ho
    cases ho
  · rintro _ ⟨⟩
    refine ⟨rfl, fun _ => rfl, fun _ => rfl, fun _ _ => rfl, ?_, ?_, ?_, by simp⟩
    · rintro - _ ⟨⟩
      rfl
    · exact fun h hh _ => (hhosting h hh).1
    · intro h hh e he
      rw [(hhosting h hh).2] at he
      cases he
  · refine .make (fun t => World.recorded_numbered pid (some parent) true rfl rfl) ⟨rfl, ?_⟩
      (by simp)
    cases hosting with
    | none => rfl
    | some h => simp [Job.numbers, Job.pending, Hosting.pending, (hhosting h rfl).2]
  · exact .make hstreams ⟨rfl, rfl⟩ (by simp)

theorem Kept.launchNode (hw : Kept w) (hnested : ∀ token, run = some token → w.nests token = true →
      w.Free (w.registryFor run) pid) (hrun : (∀ token, run = some token → w.nests token = false) →
      w.Free w.processRegistry pid)
    (hfair : run.isSome ∨ early ∨ w.initialPid ∨ w.nodeProcessHostInstalled) :
    Kept (w.launchNode run pid true early) := by
  unfold World.launchNode
  match run with
  | none => exact hw.launchRun (hrun (by simp)) hfair
  | some token =>
    dsimp only
    cases hnests : w.nests token with
    | true => exact hw.launchNested (hnested token rfl hnests)
    | false =>
      refine hw.launchRun (hrun ?_) hfair
      rintro _ ⟨⟩
      exact hnests

end ForkedRuns

end Tabnode
