import Tabnode.ForkedRuns.Actions

/-!
# The books of a realm that forks runs

What a job holds is a number for each process numbered for it that has not been reaped. The
books are kept (`Kept`) when the log and what the jobs hold agree, each job is in a state
its code allows, and every entry of a table is of a run that a host gave or of a job that
will clear it.

A step changes one job, or begins one; `Kept.set` and `Kept.push` say what must be seen of
the change.
-/

namespace Tabnode

namespace ForkedRuns

open List

open Life (Call Held Balanced)

variable {R : Type*}

/-- What a job holds: the process numbered for it, and the one the host's run forked. -/
def Job.held (job : Job R) : Bool → Option (Held (R × ℕ))
  | false => if job.kind.over then none
    else job.own.map fun o => ⟨(o.home, o.pid), job.kind.handle, o.reported⟩
  | true => job.hosting.bind fun h =>
    if h.pending then h.own.map fun o => ⟨(o.home, o.pid), false, o.reported⟩ else none

def World.held (w : World R) (p : ℕ × Bool) : Option (Held (R × ℕ)) :=
  w.jobs[p.1]?.bind fun job => job.held p.2

def Job.pending (job : Job R) : Bool := job.hosting.any (·.pending)

def Job.numbers (job : Job R) : Bool :=
  match job.kind with
  | .child _ => !job.kind.over || job.pending
  | .launch _ => if job.hosting.isSome then job.pending else !job.kind.over

def Job.streams (job : Job R) : Bool :=
  match job.kind with
  | .child _ => !job.kind.over
  | .launch l => l.nested && !l.ended

def Job.fds (job : Job R) : Bool :=
  match job.kind with
  | .child _ => !job.kind.over
  | .launch _ => false

/-! ## The states of a job -/

/-- What holds of a child. -/
structure ChildSound (job : Job R) (c : ChildRun) : Prop where
  own : job.own.isSome
  token : job.token.isSome
  begun : job.hosting.isSome ∨ c.hostRun → c.started
  apart : job.hosting.isSome → c.hostRun = false
  hosted : ∀ o ∈ job.own, o.reported → job.hosting.isSome ∨ c.hostRun
  ended : c.finished → job.hosting.isSome ∨ c.hostRun → ∀ o ∈ job.own, o.reported
  thrown : c.thrown → c.finished

/-- What holds of a launch. -/
structure LaunchSound (job : Job R) (l : LaunchRun) : Prop where
  reaper : l.reaper.isSome = job.own.isSome
  token : job.own.isSome → job.token.isSome
  nested : l.nested → job.own.isSome
  alone : job.hosting.isSome → job.own.isSome → l.nested
  here : job.hosting = none → ∀ o ∈ job.own, o.reported = false
  unforked : ∀ h ∈ job.hosting, job.own.isSome → h.own = none
  answered : ∀ h ∈ job.hosting, ∀ e, h.answer = some (some e) → ∀ o ∈ job.own, o.reported
  ended : l.ended → job.pending = false

/-- What holds of a job in a realm. -/
structure Job.Sound (realm : R) (job : Job R) : Prop where
  home : ∀ h ∈ job.hosting, ∀ o ∈ h.own, o.home = realm
  child : ∀ c, job.kind = .child c → ChildSound job c
  launch : ∀ l, job.kind = .launch l → LaunchSound job l

/-! ## Entries that will be cleared -/

/-- A table has an entry of a run only where a host gave the run, or a job will clear it. -/
def Covered (entry : Token → Prop) (given : Finset Token) (clears : Job R → Bool)
    (jobs : List (Job R)) : Prop :=
  ∀ t, entry t → t ∈ given ∨ ∃ job ∈ jobs, job.token = some t ∧ clears job = true

/-- What is seen of a table when a job changes from clearing its run where `a` says to
where `b` says. -/
def Carries (entry entry' : Token → Prop) (given given' : Finset Token)
    (a b : Token → Prop) : Prop :=
  ∀ t, entry' t → t ∈ given' ∨ b t ∨ entry t ∧ (t ∈ given → t ∈ given') ∧ (a t → b t)

def Clears (clears : Job R → Bool) (job : Job R) (t : Token) : Prop :=
  job.token = some t ∧ clears job = true

variable {entry entry' : Token → Prop} {given given' : Finset Token} {clears : Job R → Bool}
  {jobs : List (Job R)}

variable {i : ℕ} {a b : Job R}

theorem Covered.set (hc : Covered entry given clears jobs) (hi : jobs[i]? = some a)
    (h : Carries entry entry' given given' (Clears clears a) (Clears clears b)) :
    Covered entry' given' clears (jobs.set i b) := by
  intro t ht
  have hb : b ∈ jobs.set i b := List.mem_set (List.getElem?_eq_some_iff.1 hi).1 b
  rcases h t ht with hg | hbt | ⟨he, hg, hab⟩
  · exact .inl hg
  · exact .inr ⟨b, hb, hbt⟩
  · rcases hc t he with hgiven | ⟨job, hjob, hclears⟩
    · exact .inl (hg hgiven)
    · obtain ⟨j, hj⟩ := mem_iff_getElem?.1 hjob
      by_cases hij : i = j
      · subst hij
        cases hi.symm.trans hj
        exact .inr ⟨b, hb, hab hclears⟩
      · refine .inr ⟨job, mem_iff_getElem?.2 ⟨j, ?_⟩, hclears⟩
        rw [getElem?_set_ne hij, hj]

theorem Covered.push (hc : Covered entry given clears jobs)
    (h : Carries entry entry' given given' (fun _ => False) (Clears clears b)) :
    Covered entry' given' clears (jobs ++ [b]) := by
  intro t ht
  rcases h t ht with hg | hbt | ⟨he, hg, -⟩
  · exact .inl hg
  · exact .inr ⟨b, by simp, hbt⟩
  · rcases hc t he with hgiven | ⟨job, hjob, hclears⟩
    · exact .inl (hg hgiven)
    · exact .inr ⟨job, by simp [hjob], hclears⟩

theorem Carries.same {a b : Token → Prop} (h : ∀ t, a t → b t) :
    Carries entry entry given given a b :=
  fun t ht => .inr (.inr ⟨ht, id, h t⟩)

theorem Carries.clear {a b : Token → Prop} {token : Token}
    (hentry : ∀ t, entry' t → t ≠ token ∧ entry t)
    (hgiven : ∀ t, t ≠ token → t ∈ given → t ∈ given') (ha : ∀ t, a t → t = token) :
    Carries entry entry' given given' a b := by
  intro t ht
  obtain ⟨hne, he⟩ := hentry t ht
  exact .inr (.inr ⟨he, hgiven t hne, fun hat => absurd (ha t hat) hne⟩)

theorem Carries.make {a b : Token → Prop} {token : Token}
    (hentry : ∀ t, entry' t → t = token ∨ entry t) (hb : b token)
    (ha : ∀ t, a t → b t) : Carries entry entry' given given a b := by
  intro t ht
  rcases hentry t ht with rfl | he
  · exact .inr (.inl hb)
  · exact .inr (.inr ⟨he, id, ha t⟩)

/-! ## The books -/

def World.Recorded (w : World R) (t : Token) : Prop :=
  w.runRegistries t ≠ none ∨ w.pidsOfRuns t ≠ none

/-- The books are kept. -/
structure Kept [DecidableEq R] (w : World R) : Prop where
  balanced : Balanced w.log w.held
  sound : ∀ job ∈ w.jobs, job.Sound w.processRegistry
  numbers : Covered w.Recorded w.given Job.numbers w.jobs
  streams : Covered (· ∈ w.runStreams) w.opened Job.streams w.jobs
  fds : Covered (fun t => ∃ fd, (t, fd) ∈ w.runFds) ∅ Job.fds w.jobs

/-- What a log gains when what a job holds changes from `a` to `b`. -/
inductive Gains [DecidableEq R] (log : List ((R × ℕ) × Call Ending))
    (a b : Bool → Option (Held (R × ℕ))) : List ((R × ℕ) × Call Ending) → Prop where
  | nothing (h : b = a) : Gains log a b log
  | allocate {x : Bool} {k : R × ℕ} {handle : Bool}
      (hk : Life.read (Life.heard log k) = some .free) (ha : a x = none)
      (hb : b x = some ⟨k, handle, false⟩) (h : ∀ y, y ≠ x → b y = a y) :
      Gains log a b (log ++ [(k, .allocate handle)])
  | exit {x : Bool} {k : R × ℕ} {handle : Bool} {e : Ending}
      (ha : a x = some ⟨k, handle, false⟩) (hb : b x = some ⟨k, handle, true⟩)
      (h : ∀ y, y ≠ x → b y = a y) : Gains log a b (log ++ [(k, .exit e)])
  | reap {x : Bool} {h : Held (R × ℕ)} {e answer : Ending} (ha : a x = some h)
      (hb : b x = none) (hsame : ∀ y, y ≠ x → b y = a y) :
      Gains log a b (log ++ (Life.reaping h.ended h.handle e answer).map
        fun c => (h.key, c))

variable [DecidableEq R] {w w' : World R}

theorem Gains.balanced {held held' : ℕ × Bool → Option (Held (R × ℕ))}
    {a b : Bool → Option (Held (R × ℕ))} {log log' : List ((R × ℕ) × Call Ending)}
    (hw : Balanced log held) (h : Gains log a b log') (ha : ∀ x, held (i, x) = a x)
    (hb : ∀ x, held' (i, x) = b x) (hother : ∀ j, j ≠ i → ∀ x, held' (j, x) = held (j, x)) :
    Balanced log' held' := by
  have hrest : ∀ {x : Bool}, (∀ y, y ≠ x → b y = a y) →
      ∀ p, p ≠ (i, x) → held' p = held p := by
    rintro x hsame ⟨j, y⟩ hne
    by_cases hj : j = i
    · subst hj
      rw [hb, ha, hsame y fun hy => hne (by rw [hy])]
    · exact hother j hj y
  cases h with
  | nothing hab =>
    have hheld : held' = held := by
      funext ⟨j, y⟩
      by_cases hj : j = i
      · subst hj
        rw [hb, ha, hab]
      · exact hother j hj y
    rwa [hheld]
  | allocate hk hax hbx hsame =>
    exact hw.allocate hk ((ha _).trans hax) ((hb _).trans hbx) (hrest hsame)
  | exit hax hbx hsame =>
    exact hw.exit ((ha _).trans hax) _ ((hb _).trans hbx) (hrest hsame)
  | reap hax hbx hsame =>
    exact hw.reap ((ha _).trans hax) _ _ ((hb _).trans hbx) (hrest hsame)

theorem Kept.soundAt (hw : Kept w) {job : Job R} (hi : w.jobs[i]? = some job) :
    job.Sound w.processRegistry :=
  hw.sound job (mem_of_getElem? hi)

theorem Kept.set (hw : Kept w) (hi : w.jobs[i]? = some a) (hjobs : w'.jobs = w.jobs.set i b)
    (hrealm : w'.processRegistry = w.processRegistry) (hlog : Gains w.log a.held b.held w'.log)
    (hb : b.Sound w.processRegistry)
    (hnumbers : Carries w.Recorded w'.Recorded w.given w'.given (Clears Job.numbers a)
      (Clears Job.numbers b))
    (hstreams : Carries (· ∈ w.runStreams) (· ∈ w'.runStreams) w.opened w'.opened
      (Clears Job.streams a) (Clears Job.streams b))
    (hfds : Carries (fun t => ∃ fd, (t, fd) ∈ w.runFds) (fun t => ∃ fd, (t, fd) ∈ w'.runFds)
      ∅ ∅ (Clears Job.fds a) (Clears Job.fds b)) : Kept w' where
  balanced := by
    have hlt := (List.getElem?_eq_some_iff.1 hi).1
    refine hlog.balanced hw.balanced (i := i) (fun x => ?_) (fun x => ?_) fun j hj x => ?_
    · simp [World.held, hi]
    · simp [World.held, hjobs, hlt]
    · simp [World.held, hjobs, getElem?_set_ne hj.symm]
  sound job hjob := by
    rw [hrealm]
    rw [hjobs] at hjob
    rcases mem_or_eq_of_mem_set hjob with h | rfl
    · exact hw.sound job h
    · exact hb
  numbers := by
    rw [hjobs]
    exact hw.numbers.set hi hnumbers
  streams := by
    rw [hjobs]
    exact hw.streams.set hi hstreams
  fds := by
    rw [hjobs]
    exact hw.fds.set hi hfds

theorem Kept.push (hw : Kept w) (hjobs : w'.jobs = w.jobs ++ [b])
    (hrealm : w'.processRegistry = w.processRegistry)
    (hlog : Gains w.log (fun _ => none) b.held w'.log) (hb : b.Sound w.processRegistry)
    (hnumbers : Carries w.Recorded w'.Recorded w.given w'.given (fun _ => False)
      (Clears Job.numbers b))
    (hstreams : Carries (· ∈ w.runStreams) (· ∈ w'.runStreams) w.opened w'.opened
      (fun _ => False) (Clears Job.streams b))
    (hfds : Carries (fun t => ∃ fd, (t, fd) ∈ w.runFds) (fun t => ∃ fd, (t, fd) ∈ w'.runFds)
      ∅ ∅ (fun _ => False) (Clears Job.fds b)) : Kept w' where
  balanced := by
    refine hlog.balanced hw.balanced (i := w.jobs.length) (fun x => ?_) (fun x => ?_)
      fun j hj x => ?_
    · simp [World.held]
    · simp [World.held, hjobs]
    · rw [World.held, World.held, hjobs]
      rcases Nat.lt_or_gt_of_ne hj with hlt | hgt
      · rw [getElem?_append_left hlt]
      · rw [getElem?_eq_none (by simp; omega), getElem?_eq_none (by simp; omega)]
  sound job hjob := by
    rw [hrealm]
    rw [hjobs, mem_append, mem_singleton] at hjob
    rcases hjob with h | rfl
    · exact hw.sound job h
    · exact hb
  numbers := by
    rw [hjobs]
    exact hw.numbers.push hnumbers
  streams := by
    rw [hjobs]
    exact hw.streams.push hstreams
  fds := by
    rw [hjobs]
    exact hw.fds.push hfds

theorem Kept.quiet (hw : Kept w) (hi : w.jobs[i]? = some a) (hb : b.Sound w.processRegistry)
    (htoken : b.token = a.token) (hheld : b.held = a.held)
    (hnumbers : a.numbers = true → b.numbers = true)
    (hstreams : a.streams = true → b.streams = true) (hfds : a.fds = true → b.fds = true) :
    Kept (w.setJob i b) := by
  refine hw.set hi rfl rfl (.nothing hheld) hb ?_ ?_ ?_
  · exact .same fun t h => ⟨htoken.trans h.1, hnumbers h.2⟩
  · exact .same fun t h => ⟨htoken.trans h.1, hstreams h.2⟩
  · exact .same fun t h => ⟨htoken.trans h.1, hfds h.2⟩

theorem Kept.tables (hw : Kept w) (hjobs : w'.jobs = w.jobs) (hlog : w'.log = w.log)
    (hrealm : w'.processRegistry = w.processRegistry)
    (hnumbers : ∀ t, w'.Recorded t → t ∈ w'.given ∨ w.Recorded t ∧ (t ∈ w.given → t ∈ w'.given))
    (hstreams : ∀ t, t ∈ w'.runStreams →
      t ∈ w'.opened ∨ t ∈ w.runStreams ∧ (t ∈ w.opened → t ∈ w'.opened))
    (hfds : w'.runFds = w.runFds) : Kept w' where
  balanced := by
    have hheld : w'.held = w.held := by
      funext p
      rw [World.held, World.held, hjobs]
    rw [hlog, hheld]
    exact hw.balanced
  sound := by
    rw [hjobs, hrealm]
    exact hw.sound
  numbers t ht := by
    rw [hjobs]
    rcases hnumbers t ht with h | ⟨h, hg⟩
    · exact .inl h
    · exact (hw.numbers t h).imp_left hg
  streams t ht := by
    rw [hjobs]
    rcases hstreams t ht with h | ⟨h, hg⟩
    · exact .inl h
    · exact (hw.streams t h).imp_left hg
  fds := by
    rw [hjobs, hfds]
    exact hw.fds

end ForkedRuns

end Tabnode
