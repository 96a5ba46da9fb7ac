import Tabnode.GuestLoop.Loop

/-!
# What the loop keeps

The ticks that were run and those that wait are the queued ones, in order, whatever
flags are set and however the frames are left (`Kept.account`); where no drain runs and
a tick waits, a drain stands among the microtasks (`Kept.pending`, `Kept.scheduled`);
and what waits below a callback that may drain was queued after it was entered
(`Kept.marks`). Each way to leave a frame keeps this (`Kept.leave`, `Kept.drainLoop`),
so every step does (`Kept.step`).
-/

namespace Tabnode

namespace GuestLoop

open Loop List

/-! ## What a stack holds -/

def drains : List Frame → ℕ
  | [] => 0
  | .tick _ _ :: rest => drains rest + 1
  | _ :: rest => drains rest

def brackets : List Frame → ℕ
  | [] => 0
  | .entry :: rest => brackets rest
  | .attempt :: rest => brackets rest
  | _ :: rest => brackets rest + 1

/-- A callback that may drain, or whose drain runs, with how many ticks had been queued
when it was entered. -/
def Frame.mark? : Frame → Option ℕ
  | .callback true mark => some mark
  | .tick _ within => within
  | _ => none

theorem taken_eq_zero {stack : List Frame} (h : drains stack = 0) : taken stack = 0 := by
  induction stack with
  | nil => rfl
  | cons f rest ih => cases f <;> simp_all [drains, taken]

/-! ## The invariant -/

/-- What holds between any two things the loop does: the one drain there can be is
flagged, and so is the one that is scheduled. -/
structure Sound (s : Loop) : Prop where
  draining : drains s.stack = if s.drainingTicks then 1 else 0
  within : taken s.stack ≤ s.ticks.length
  account : s.ran ++ s.pending = List.range s.queued
  scheduled : s.microtasks.count .drain = if s.tickDrainScheduled then 1 else 0
  depth : s.depth = brackets s.stack
  marks : ∀ f ∈ s.stack, ∀ m, f.mark? = some m → m ≤ s.queued ∧ ∀ x ∈ s.ticks, m ≤ x

/-- What holds of every state, with a drain scheduled for ticks no drain is at. -/
structure Kept (s : Loop) : Prop extends Sound s where
  waits : s.drainingTicks = false → s.ticks ≠ [] → s.tickDrainScheduled = true

theorem kept_start : Kept start := by
  refine ⟨⟨rfl, Nat.le_refl 0, rfl, rfl, rfl, ?_⟩, fun _ h => absurd rfl h⟩
  intro f hf
  cases hf

/-! ## A drain is scheduled -/

section

variable (s : Loop)

@[simp] theorem stack_scheduleTickDrain : s.scheduleTickDrain.stack = s.stack := by
  unfold scheduleTickDrain
  split <;> rfl

@[simp] theorem ticks_scheduleTickDrain : s.scheduleTickDrain.ticks = s.ticks := by
  unfold scheduleTickDrain
  split <;> rfl

@[simp] theorem drainingTicks_scheduleTickDrain :
    s.scheduleTickDrain.drainingTicks = s.drainingTicks := by
  unfold scheduleTickDrain
  split <;> rfl

@[simp] theorem depth_scheduleTickDrain : s.scheduleTickDrain.depth = s.depth := by
  unfold scheduleTickDrain
  split <;> rfl

@[simp] theorem queued_scheduleTickDrain : s.scheduleTickDrain.queued = s.queued := by
  unfold scheduleTickDrain
  split <;> rfl

@[simp] theorem ran_scheduleTickDrain : s.scheduleTickDrain.ran = s.ran := by
  unfold scheduleTickDrain
  split <;> rfl

theorem leaveDrain_scheduleTickDrain (within : Option ℕ) :
    s.scheduleTickDrain.leaveDrain within = (s.leaveDrain within).scheduleTickDrain := by
  unfold scheduleTickDrain
  cases within with
  | none => exact apply_ite (leaveDrain none) _ _ _
  | some m => exact apply_ite (leaveDrain (some m)) _ _ _

end

variable {s : Loop}

theorem Sound.scheduleTickDrain (h : Sound s) : Kept s.scheduleTickDrain := by
  have hpending : s.scheduleTickDrain.pending = s.pending := by
    rw [Loop.pending, Loop.pending, ticks_scheduleTickDrain, stack_scheduleTickDrain]
  refine ⟨⟨?_, ?_, ?_, ?_, ?_, ?_⟩, ?_⟩
  · simpa using h.draining
  · simpa using h.within
  · rw [hpending]
    simpa using h.account
  · rw [Loop.scheduleTickDrain]
    split
    · exact h.scheduled
    · next hnot =>
        have hfree : s.tickDrainScheduled = false := by
          cases hs : s.tickDrainScheduled with
          | true => exact absurd (.inl hs) hnot
          | false => rfl
        have hcount := h.scheduled
        rw [hfree] at hcount
        simp only [enqueue, count_append, hcount]
        rfl
  · simpa using h.depth
  · simpa using h.marks
  · intro hdraining hticks
    rw [drainingTicks_scheduleTickDrain] at hdraining
    rw [ticks_scheduleTickDrain] at hticks
    rw [Loop.scheduleTickDrain]
    split
    · next hif => simpa [hdraining, hticks] using hif
    · rfl

theorem Kept.queueGuestNextTick (h : Kept s) : Kept s.queueGuestNextTick := by
  refine Sound.scheduleTickDrain ⟨h.draining, ?_, ?_, h.scheduled, h.depth, ?_⟩
  · show taken s.stack ≤ (s.ticks ++ [s.queued]).length
    rw [length_append]
    exact Nat.le_add_right_of_le h.within
  · show s.ran ++ (s.ticks ++ [s.queued]).drop (taken s.stack) = List.range (s.queued + 1)
    rw [drop_append_of_le_length h.within, ← append_assoc, range_succ]
    exact congrArg (· ++ [s.queued]) h.account
  · intro f hf m hm
    obtain ⟨hle, hall⟩ := h.marks f hf m hm
    refine ⟨Nat.le_succ_of_le hle, fun x hx => ?_⟩
    rcases mem_append.1 hx with hx | hx
    · exact hall x hx
    · rw [mem_singleton.1 hx]
      exact hle

/-! ## A drain -/

/-- A drain of the ticks that has taken some of them, over the rest of the stack. -/
structure Drains (n : ℕ) (within : Option ℕ) (rest : List Frame) (s : Loop) : Prop where
  draining : s.drainingTicks = true
  alone : drains rest = 0
  within_le : n ≤ s.ticks.length
  account : s.ran ++ s.ticks.drop n = List.range s.queued
  scheduled : s.microtasks.count .drain = if s.tickDrainScheduled then 1 else 0
  depth : s.depth = brackets rest + 1
  marks : ∀ f ∈ .tick n within :: rest, ∀ m, f.mark? = some m →
    m ≤ s.queued ∧ ∀ x ∈ s.ticks, m ≤ x

variable {n : ℕ} {within : Option ℕ} {rest : List Frame}

/-- A drain that ends, by an exception or with nothing left to take. -/
theorem Drains.finish (h : Drains n within rest s) :
    Kept (((s.onStack rest).finishDrain n).leaveDrain within) := by
  rw [finishDrain, leaveDrain_scheduleTickDrain]
  have hzero := taken_eq_zero h.alone
  have hmarks : ∀ f ∈ rest, ∀ m, f.mark? = some m →
      m ≤ s.queued ∧ ∀ x ∈ s.ticks.drop n, m ≤ x := fun f hf m hm =>
    have hmark := h.marks f (mem_cons_of_mem _ hf) m hm
    ⟨hmark.1, fun x hx => hmark.2 x (mem_of_mem_drop hx)⟩
  have haccount : s.ran ++ (s.ticks.drop n).drop (taken rest) = List.range s.queued := by
    rw [hzero, drop_zero]
    exact h.account
  have hdepth : s.depth - 1 = brackets rest := by
    rw [h.depth, Nat.add_sub_cancel]
  apply Sound.scheduleTickDrain
  cases within with
  | none | some _ => exact ⟨h.alone, hzero ▸ Nat.zero_le _, haccount, h.scheduled, hdepth, hmarks⟩

theorem Drains.loop (h : Drains n within rest s) : Kept (drainLoop n within rest s) := by
  rw [drainLoop]
  cases ht : s.ticks[n]? with
  | none => exact h.finish
  | some t =>
      obtain ⟨hlt, hget⟩ := List.getElem?_eq_some_iff.1 ht
      refine ⟨⟨?_, hlt, ?_, h.scheduled, h.depth, ?_⟩, ?_⟩
      · show drains rest + 1 = if s.drainingTicks then 1 else 0
        rw [h.alone, h.draining]
        rfl
      · show (s.ran ++ [t]) ++ s.ticks.drop (n + 1) = List.range s.queued
        rw [append_assoc, ← h.account, drop_eq_getElem_cons hlt, hget]
        rfl
      · intro f hf m hm
        rcases mem_cons.1 hf with rfl | hf
        · exact h.marks _ mem_cons_self m hm
        · exact h.marks f (mem_cons_of_mem _ hf) m hm
      · intro hdraining
        exact absurd (h.draining.symm.trans hdraining) (by simp)

theorem Kept.atDrain (h : Kept s)
    (hstack : s.stack = .tick n within :: rest) : Drains n within rest s := by
  have hone := h.draining
  have hwithin := h.within
  have haccount := h.account
  have hdepth := h.depth
  have hmarks := h.marks
  rw [Loop.pending] at haccount
  rw [hstack] at hone hwithin haccount hdepth hmarks
  have hflag : s.drainingTicks = true := by
    cases hd : s.drainingTicks with
    | true => rfl
    | false =>
        rw [hd] at hone
        cases hone
  rw [hflag] at hone
  exact ⟨hflag, Nat.succ.inj hone, hwithin, haccount, h.scheduled, hdepth, hmarks⟩

/-- A drain that begins, in a state that is as kept as its caller's bracket leaves it. -/
theorem drains_begin (hflag : s.drainingTicks = false) (halone : drains rest = 0)
    (haccount : s.ran ++ s.ticks = List.range s.queued)
    (hscheduled : s.microtasks.count .drain = if s.tickDrainScheduled then 1 else 0)
    (hdepth : s.depth = brackets rest + 1)
    (hmarks : ∀ f ∈ .tick 0 within :: rest, ∀ m, f.mark? = some m →
      m ≤ s.queued ∧ ∀ x ∈ s.ticks, m ≤ x) : Kept (drainGuestNextTicks within rest s) := by
  rw [drainGuestNextTicks, if_neg (by simp [hflag])]
  exact Drains.loop ⟨rfl, halone, Nat.zero_le _, haccount, hscheduled, hdepth, hmarks⟩

/-! ## A frame that is left -/

/-- An exception leaves a frame, and what its `finally` does keeps the order. -/
theorem Kept.leave (h : Kept s) {f : Frame}
    (hstack : s.stack = f :: rest) : Kept (f.leave (s.onStack rest)) := by
  have hone := h.draining
  have hwithin := h.within
  have haccount := h.account
  have hdepth := h.depth
  have hmarks : ∀ f ∈ rest, ∀ m, f.mark? = some m → m ≤ s.queued ∧ ∀ x ∈ s.ticks, m ≤ x :=
    fun g hg => h.marks g (hstack ▸ mem_cons_of_mem _ hg)
  rw [Loop.pending] at haccount
  rw [hstack] at hone hwithin haccount hdepth
  cases f with
  | entry | attempt => exact ⟨⟨hone, hwithin, haccount, h.scheduled, hdepth, hmarks⟩, h.waits⟩
  | execution | callback _ _ =>
      have hless : s.depth - 1 = brackets rest := by rw [hdepth]; rfl
      exact ⟨⟨hone, hwithin, haccount, h.scheduled, hless, hmarks⟩, h.waits⟩
  | tick n within => exact (h.atDrain hstack).finish

theorem Kept.unwind (h : Kept s) {frames : List Frame} (hstack : s.stack = frames) :
    Kept (unwind frames s) := by
  induction frames generalizing s with
  | nil => exact h
  | cons f rest ih =>
      have hleft := h.leave hstack
      cases f with
      | attempt => exact hleft
      | entry | execution | callback _ _ => exact ih hleft rfl
      | tick n within =>
          refine ih hleft ?_
          rw [Frame.leave, finishDrain, leaveDrain_scheduleTickDrain, stack_scheduleTickDrain]
          cases within <;> rfl

/-! ## Every step -/

theorem Kept.returned (h : Kept s) : Kept (returned s) := by
  rw [GuestLoop.returned]
  cases hstack : s.stack with
  | nil => exact h
  | cons f rest =>
      have hleft := h.leave hstack
      cases f with
      | entry | attempt | execution => exact hleft
      | tick n within => exact (h.atDrain hstack).loop
      | callback fromTheLoop mark =>
          simp only
          split
          · next hdrain =>
              cases hflag : s.drainingTicks with
              | true =>
                  rw [drainGuestNextTicks, if_pos hflag]
                  exact hleft
              | false =>
                  have hone := h.draining
                  have haccount := h.account
                  have hdepth := h.depth
                  rw [Loop.pending] at haccount
                  rw [hflag, hstack] at hone
                  rw [hstack] at haccount hdepth
                  have hrest : drains rest = 0 := hone
                  have hzero : taken rest = 0 := taken_eq_zero hrest
                  refine drains_begin hflag hrest ?_ h.scheduled hdepth ?_
                  · rw [show taken (.callback fromTheLoop mark :: rest) = taken rest from rfl,
                      hzero, drop_zero] at haccount
                    exact haccount
                  · intro g hg m hm
                    rcases mem_cons.1 hg with rfl | hg
                    · refine h.marks (.callback true mark) ?_ m hm
                      rw [hstack, ← hdrain.1]
                      exact mem_cons_self
                    · exact h.marks g (hstack ▸ mem_cons_of_mem _ hg) m hm
          · exact hleft

theorem Kept.push (h : Kept s) {f : Frame} (hf : f = .entry ∨ f = .attempt) : Kept (s.push f) := by
  rcases hf with rfl | rfl
  all_goals
    refine ⟨⟨h.draining, h.within, h.account, h.scheduled, h.depth, ?_⟩, h.waits⟩
    intro g hg m hm
    rcases mem_cons.1 hg with rfl | hg
    · cases hm
    · exact h.marks g hg m hm

theorem Kept.withGuestExecution (h : Kept s) : Kept (withGuestExecution s) := by
  refine ⟨⟨h.draining, h.within, h.account, h.scheduled, ?_, ?_⟩, h.waits⟩
  · exact congrArg (· + 1) h.depth
  · intro g hg m hm
    rcases mem_cons.1 hg with rfl | hg
    · cases hm
    · exact h.marks g hg m hm

theorem Kept.withGuestCallback (h : Kept s) : Kept (withGuestCallback s) := by
  refine ⟨⟨h.draining, h.within, h.account, h.scheduled, ?_, ?_⟩, h.waits⟩
  · exact congrArg (· + 1) h.depth
  · intro g hg m hm
    rcases mem_cons.1 hg with rfl | hg
    · by_cases hloop : s.depth = 0 ∧ s.continuation = false ∧ s.ticks = []
      · rw [decide_eq_true hloop] at hm
        cases hm
        refine ⟨Nat.le_refl _, fun x hx => ?_⟩
        have hx : x ∈ s.ticks := hx
        rw [hloop.2.2] at hx
        cases hx
      · rw [decide_eq_false hloop] at hm
        cases hm
    · exact h.marks g hg m hm

theorem Kept.enqueue (h : Kept s) {m : Microtask} (hm : m ≠ .drain) : Kept (s.enqueue m) := by
  refine ⟨⟨h.draining, h.within, h.account, ?_, h.depth, h.marks⟩, h.waits⟩
  show (s.microtasks ++ [m]).count .drain = _
  rw [count_append, count_cons_of_ne hm, count_nil, Nat.add_zero]
  exact h.scheduled

theorem Kept.resumeGuestTurn (h : Kept s) : Kept (resumeGuestTurn s) := by
  rw [GuestLoop.resumeGuestTurn]
  split
  · exact h
  · have hresumed : Kept { s with continuation := true } :=
      ⟨⟨h.draining, h.within, h.account, h.scheduled, h.depth, h.marks⟩, h.waits⟩
    exact hresumed.enqueue (by decide)

theorem Kept.runMicrotask (h : Kept s) (hstack : s.stack = []) {m : Microtask}
    {rest : List Microtask} (hmicrotasks : s.microtasks = m :: rest) :
    Kept (runMicrotask m { s with microtasks := rest }) := by
  have hcount := h.scheduled
  rw [hmicrotasks] at hcount
  have hother (hm : m ≠ .drain) : Kept { s with microtasks := rest } := by
    rw [count_cons_of_ne hm] at hcount
    exact ⟨⟨h.draining, h.within, h.account, hcount, h.depth, h.marks⟩, h.waits⟩
  cases m with
  | drain =>
      have hone := h.draining
      have haccount := h.account
      have hdepth := h.depth
      rw [Loop.pending, hstack] at haccount
      rw [hstack] at hone hdepth
      have hflag : s.drainingTicks = false := by
        cases hd : s.drainingTicks with
        | false => rfl
        | true =>
            rw [hd] at hone
            cases hone
      have hgone : rest.count .drain = 0 := by
        rw [count_cons_self] at hcount
        cases hs : s.tickDrainScheduled with
        | false =>
            rw [hs] at hcount
            cases hcount
        | true =>
            rw [hs] at hcount
            exact Nat.succ.inj hcount
      have hmarks : ∀ f ∈ [Frame.tick 0 none], ∀ m, f.mark? = some m →
          m ≤ s.queued ∧ ∀ x ∈ s.ticks, m ≤ x := by
        intro f hf m hm
        rw [mem_singleton.1 hf] at hm
        cases hm
      exact drains_begin
        (s := Loop.begun { s with microtasks := rest, tickDrainScheduled := false })
        hflag rfl haccount hgone (congrArg (· + 1) hdepth) hmarks
  | endContinuation =>
      have hkept := hother (by decide)
      exact ⟨⟨hkept.draining, hkept.within, hkept.account, hkept.scheduled, hkept.depth,
        hkept.marks⟩, hkept.waits⟩
  | job => exact (hother (by decide)).push (.inl rfl)

/-- What an action of running code does, where some code is running. -/
theorem of_running {t u : Loop} (h : (if s.stack = [] then none else some u) = some t) : u = t := by
  split at h
  · cases h
  · exact Option.some.inj h

theorem step_kept (s : Loop) (a : Act) (t : Loop) (h : Kept s) (hstep : step s a = some t) :
    Kept t := by
  cases a with
  | enter =>
      simp only [step] at hstep
      split at hstep
      · cases hstep
        exact h.push (.inl rfl)
      · cases hstep
  | microtask =>
      simp only [step] at hstep
      split at hstep
      · next m rest hstack hmicrotasks =>
          cases hstep
          exact h.runMicrotask hstack hmicrotasks
      · cases hstep
  | queue => exact of_running hstep ▸ h.queueGuestNextTick
  | callback => exact of_running hstep ▸ h.withGuestCallback
  | execution => exact of_running hstep ▸ h.withGuestExecution
  | attempt => exact of_running hstep ▸ h.push (.inr rfl)
  | resume => exact of_running hstep ▸ h.resumeGuestTurn
  | job => exact of_running hstep ▸ h.enqueue (by decide)
  | ret => exact of_running hstep ▸ h.returned
  | throw => exact of_running hstep ▸ h.unwind rfl

theorem Reachable.kept (h : Reachable s) : Kept s := by
  obtain ⟨as, has⟩ := h
  exact Machine.invariant step_kept kept_start has

end GuestLoop

end Tabnode
