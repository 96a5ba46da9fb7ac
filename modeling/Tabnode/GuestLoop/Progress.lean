import Tabnode.GuestLoop.Ordered

/-!
# No tick waits for ever

A `Course` is an endless run in which each call that is made ends at some time. While
a tick waits and none is run, a drain is not started and one that is at work ends
(`step_of_drain`); a drain that waits among the microtasks comes nearer to their front
at each turn of the realm (`step_of_wait`), and the stack is empty again and again
(`Course.idle`). So a tick is run (`Course.progress`), and each one in its turn
(`Course.runs`).
-/

namespace Tabnode

namespace GuestLoop

open Loop List

def Loop.ahead (s : Loop) : ℕ := s.microtasks.idxOf .drain

/-! ## What one step runs -/

theorem unwind_history (frames : List Frame) (s : Loop) :
    (unwind frames s).ran = s.ran ∧ (unwind frames s).queued = s.queued := by
  induction frames generalizing s with
  | nil => exact ⟨rfl, rfl⟩
  | cons f rest ih =>
      cases f with
      | attempt => exact ⟨rfl, rfl⟩
      | entry | execution | callback _ _ => exact ih _
      | tick n within =>
          obtain ⟨hran, hqueued⟩ := ih ((Frame.tick n within).leave (s.onStack rest))
          show (unwind rest _).ran = s.ran ∧ (unwind rest _).queued = s.queued
          rw [hran, hqueued, Frame.leave, finishDrain, leaveDrain_scheduleTickDrain,
            ran_scheduleTickDrain, queued_scheduleTickDrain]
          cases within <;> exact ⟨rfl, rfl⟩

theorem leaveDrain_history (within : Option ℕ) (s : Loop) :
    (s.leaveDrain within).ran = s.ran ∧ (s.leaveDrain within).queued = s.queued := by
  cases within <;> exact ⟨rfl, rfl⟩

theorem drainLoop_history (n : ℕ) (within : Option ℕ) (rest : List Frame) (s : Loop) :
    (drainLoop n within rest s).queued = s.queued ∧
      (drainLoop n within rest s).ran.length =
        s.ran.length + (if n < s.ticks.length then 1 else 0) := by
  rw [drainLoop]
  cases ht : s.ticks[n]? with
  | none =>
      rw [if_neg (Nat.not_lt.2 (getElem?_eq_none_iff.1 ht))]
      simp only [finishDrain, leaveDrain_history, ran_scheduleTickDrain, queued_scheduleTickDrain]
      exact ⟨rfl, rfl⟩
  | some t =>
      rw [if_pos (List.getElem?_eq_some_iff.1 ht).1]
      exact ⟨rfl, by simp⟩

theorem drainGuestNextTicks_history (within : Option ℕ) (rest : List Frame) (s : Loop) :
    (drainGuestNextTicks within rest s).queued = s.queued ∧
      (drainGuestNextTicks within rest s).ran.length =
        s.ran.length + (if s.drainingTicks = false ∧ s.ticks ≠ [] then 1 else 0) := by
  rw [drainGuestNextTicks]
  split
  · next hflag =>
      simp only [leaveDrain_history, hflag]
      exact ⟨rfl, rfl⟩
  · next hflag =>
      have hloop := drainLoop_history 0 within rest { s with drainingTicks := true }
      refine ⟨hloop.1, hloop.2.trans ?_⟩
      simp [hflag, length_pos_iff]

theorem returned_history (s : Loop) :
    (returned s).queued = s.queued ∧ s.ran.length ≤ (returned s).ran.length := by
  rw [returned]
  split
  · exact ⟨rfl, Nat.le_refl _⟩
  · next fromTheLoop mark rest hstack =>
      split
      · obtain ⟨hqueued, hran⟩ := drainGuestNextTicks_history (some mark) rest s
        exact ⟨hqueued, hran ▸ Nat.le_add_right _ _⟩
      · exact ⟨rfl, Nat.le_refl _⟩
  · next n within rest hstack =>
      obtain ⟨hqueued, hran⟩ := drainLoop_history n within rest s
      exact ⟨hqueued, hran ▸ Nat.le_add_right _ _⟩
  · next f rest hcallback htick hstack =>
      cases f with
      | entry | attempt | execution => exact ⟨rfl, Nat.le_refl _⟩
      | callback fromTheLoop mark => exact (hcallback _ _ rfl).elim
      | tick n within => exact (htick _ _ rfl).elim

theorem runMicrotask_history (m : Microtask) (s : Loop) :
    (runMicrotask m s).queued = s.queued ∧ s.ran.length ≤ (runMicrotask m s).ran.length := by
  cases m with
  | drain =>
      obtain ⟨hqueued, hran⟩ := drainGuestNextTicks_history none []
        (Loop.begun { s with tickDrainScheduled := false })
      exact ⟨hqueued, Nat.le_add_right _ _ |>.trans_eq hran.symm⟩
  | endContinuation | job => exact ⟨rfl, Nat.le_refl _⟩

variable {s t : Loop} {a : Act}

theorem step_history (hstep : step s a = some t) :
    s.ran.length ≤ t.ran.length ∧ s.queued ≤ t.queued := by
  cases a with
  | enter =>
      simp only [step] at hstep
      split at hstep
      · cases hstep
        exact ⟨Nat.le_refl _, Nat.le_refl _⟩
      · cases hstep
  | microtask =>
      simp only [step] at hstep
      split at hstep
      · next m rest hstack hmicrotasks =>
          cases hstep
          obtain ⟨hqueued, hran⟩ := runMicrotask_history m { s with microtasks := rest }
          exact ⟨hran, hqueued.symm.le⟩
      · cases hstep
  | queue =>
      rw [← of_running hstep, queueGuestNextTick, ran_scheduleTickDrain, queued_scheduleTickDrain]
      exact ⟨Nat.le_refl _, Nat.le_succ _⟩
  | callback | execution | attempt => exact of_running hstep ▸ ⟨Nat.le_refl _, Nat.le_refl _⟩
  | resume =>
      rw [← of_running hstep, resumeGuestTurn]
      split <;> exact ⟨Nat.le_refl _, Nat.le_refl _⟩
  | job => exact of_running hstep ▸ ⟨Nat.le_refl _, Nat.le_refl _⟩
  | ret =>
      rw [← of_running hstep]
      obtain ⟨hqueued, hran⟩ := returned_history s
      exact ⟨hran, hqueued.symm.le⟩
  | throw =>
      rw [← of_running hstep]
      obtain ⟨hran, hqueued⟩ := unwind_history s.stack s
      exact ⟨hran ▸ Nat.le_refl _, hqueued.symm.le⟩

/-! ## While no tick is run -/

def Moves (l l' : List Frame) : Prop :=
  l' <:+ l.tail ∨ ∃ new, l' = new ++ l ∧ drains new = 0

theorem drains_append (l l' : List Frame) : drains (l ++ l') = drains l + drains l' := by
  induction l with
  | nil => exact (Nat.zero_add _).symm
  | cons f l ih =>
      cases f <;> simp only [cons_append, drains, ih]
      omega

variable {l l' : List Frame}

theorem drains_le_of_suffix (h : l <:+ l') : drains l ≤ drains l' := by
  obtain ⟨new, rfl⟩ := h
  rw [drains_append]
  exact Nat.le_add_left _ _

theorem exists_drain (h : drains l = 1) : ∃ f rest, f :: rest <:+ l ∧ drains rest = 0 := by
  induction l with
  | nil => cases h
  | cons f l ih =>
      cases f with
      | tick n within => exact ⟨_, l, suffix_refl _, Nat.succ.inj h⟩
      | _ =>
          obtain ⟨g, rest, hsuffix, hrest⟩ := ih h
          exact ⟨g, rest, hsuffix.trans (suffix_cons _ l), hrest⟩

theorem unwind_stack {frames : List Frame} (hstack : s.stack = frames) :
    (unwind frames s).stack <:+ frames.tail := by
  induction frames generalizing s with
  | nil => exact hstack.symm ▸ nil_suffix
  | cons f rest ih =>
      have hleft (t : Loop) (ht : t.stack = rest) : (unwind rest t).stack <:+ rest :=
        (ih ht).trans (tail_suffix rest)
      cases f with
      | attempt => exact suffix_refl rest
      | entry | execution | callback _ _ => exact hleft _ rfl
      | tick n within =>
          refine hleft _ ?_
          rw [Frame.leave, finishDrain, leaveDrain_scheduleTickDrain, stack_scheduleTickDrain]
          cases within <;> rfl

theorem stack_finish (n : ℕ) (within : Option ℕ) (rest : List Frame) (s : Loop) :
    (((s.onStack rest).finishDrain n).leaveDrain within).stack = rest := by
  rw [finishDrain, leaveDrain_scheduleTickDrain, stack_scheduleTickDrain]
  cases within <;> rfl

variable {rest : List Frame}

theorem drainLoop_stack {n : ℕ} {within : Option ℕ}
    (hran : (drainLoop n within rest s).ran.length = s.ran.length) :
    (drainLoop n within rest s).stack = rest := by
  have hhistory := (drainLoop_history n within rest s).2
  rw [drainLoop] at hran hhistory ⊢
  cases ht : s.ticks[n]? with
  | none => exact stack_finish n within rest s
  | some t =>
      rw [hran, if_pos (List.getElem?_eq_some_iff.1 ht).1] at hhistory
      omega

theorem drainGuestNextTicks_stack {within : Option ℕ}
    (hran : (drainGuestNextTicks within rest s).ran.length = s.ran.length) :
    (drainGuestNextTicks within rest s).stack = rest := by
  rw [drainGuestNextTicks] at hran ⊢
  split at hran
  · next hflag =>
      rw [if_pos hflag]
      cases within <;> rfl
  · next hflag =>
      rw [if_neg hflag]
      exact drainLoop_stack hran

theorem returned_stack (hran : (returned s).ran.length = s.ran.length) :
    (returned s).stack <:+ s.stack.tail := by
  rw [returned] at hran ⊢
  cases hstack : s.stack with
  | nil => exact hstack.symm ▸ nil_suffix
  | cons f rest =>
      rw [hstack] at hran
      cases f with
      | entry | attempt | execution => exact suffix_refl rest
      | tick n within =>
          have hreturned := drainLoop_stack hran
          show (drainLoop n within rest s).stack <:+ rest
          rw [hreturned]
      | callback fromTheLoop mark =>
          simp only at hran ⊢
          split at hran
          · next hdrain =>
              rw [if_pos hdrain, drainGuestNextTicks_stack hran]
              show rest <:+ rest
              exact suffix_refl rest
          · next hdrain =>
              rw [if_neg hdrain]
              exact suffix_refl rest

theorem step_moves (hstep : step s a = some t)
    (hran : t.ran.length = s.ran.length) : Moves s.stack t.stack := by
  have hsame (h : t.stack = s.stack) : Moves s.stack t.stack := .inr ⟨[], h, rfl⟩
  cases a with
  | enter =>
      simp only [step] at hstep
      split at hstep
      · cases hstep
        exact .inr ⟨[.entry], rfl, rfl⟩
      · cases hstep
  | microtask =>
      simp only [step] at hstep
      split at hstep
      · next m rest hstack hmicrotasks =>
          cases hstep
          cases m with
          | drain =>
              refine .inl ?_
              have hreturned := drainGuestNextTicks_stack
                (s := Loop.begun { s with microtasks := rest, tickDrainScheduled := false }) hran
              exact hreturned ▸ nil_suffix
          | endContinuation => exact hsame rfl
          | job => exact .inr ⟨[.entry], rfl, rfl⟩
      · cases hstep
  | queue =>
      refine hsame ?_
      rw [← of_running hstep, queueGuestNextTick, stack_scheduleTickDrain]
  | callback => exact of_running hstep ▸ .inr ⟨[_], rfl, rfl⟩
  | execution => exact of_running hstep ▸ .inr ⟨[.execution], rfl, rfl⟩
  | attempt => exact of_running hstep ▸ .inr ⟨[.attempt], rfl, rfl⟩
  | resume =>
      refine hsame ?_
      rw [← of_running hstep, resumeGuestTurn]
      split <;> rfl
  | job => exact of_running hstep ▸ .inr ⟨[], rfl, rfl⟩
  | ret =>
      have ht := of_running hstep
      rw [← ht] at hran ⊢
      exact .inl (returned_stack hran)
  | throw => exact of_running hstep ▸ .inl (unwind_stack rfl)

/-- A call stays below what a step does above it, or the step ends it. -/
theorem Moves.suffix (h : Moves l l') {f : Frame}
    (hsuffix : f :: rest <:+ l) : f :: rest <:+ l' ∨ l' <:+ rest := by
  rcases h with hleft | ⟨new, rfl, -⟩
  · rcases suffix_or_suffix_of_suffix hsuffix (hleft.trans (tail_suffix l)) with h | h
    · exact .inl h
    · rcases suffix_cons_iff.1 h with rfl | h
      · exact .inl (suffix_refl _)
      · exact .inr h
  · exact .inl (hsuffix.trans (suffix_append new l))

theorem Moves.drains_le (h : Moves l l') : drains l' ≤ drains l := by
  rcases h with hleft | ⟨new, rfl, hnew⟩
  · exact (drains_le_of_suffix hleft).trans (drains_le_of_suffix (tail_suffix l))
  · rw [drains_append, hnew, Nat.zero_add]

theorem unwind_microtasks {frames : List Frame} (h : drains frames = 0) (s : Loop) :
    (unwind frames s).microtasks = s.microtasks := by
  induction frames generalizing s with
  | nil => rfl
  | cons f rest ih =>
      cases f with
      | attempt => rfl
      | entry | execution | callback _ _ => exact ih h _
      | tick n within => cases h

/-- A call that returns, no drain among the frames, and starts none, schedules none. -/
theorem returned_microtasks (hflag : s.drainingTicks = false) (hticks : s.ticks ≠ [])
    (halone : drains s.stack = 0) (hran : (returned s).ran.length = s.ran.length) :
    (returned s).microtasks = s.microtasks := by
  rw [returned] at hran ⊢
  cases hstack : s.stack with
  | nil => rfl
  | cons f rest =>
      rw [hstack] at hran halone
      cases f with
      | entry | attempt | execution => rfl
      | tick n within => cases halone
      | callback fromTheLoop mark =>
          simp only at hran ⊢
          split at hran
          · have hhistory := (drainGuestNextTicks_history (some mark) rest s).2
            rw [if_pos ⟨hflag, hticks⟩] at hhistory
            omega
          · next hdrain =>
              rw [if_neg hdrain]
              rfl

theorem stack_ne_nil {u : Loop} (h : (if s.stack = [] then none else some u) = some t) :
    s.stack ≠ [] := by
  intro hnil
  rw [if_pos hnil] at h
  cases h

/-- While ticks wait that no step runs, and no drain is at work, a scheduled drain keeps
its place or comes nearer to the front, and does where nothing else is running. -/
theorem step_of_wait (h : Kept s) (hflag : s.drainingTicks = false) (hticks : s.ticks ≠ [])
    (hstep : step s a = some t) (hran : t.ran.length = s.ran.length) :
    t.ahead ≤ s.ahead ∧ (s.stack = [] → t.ahead < s.ahead) := by
  have hscheduled := h.waits hflag hticks
  have hmem : .drain ∈ s.microtasks := by
    have hcount := h.scheduled
    rw [hscheduled] at hcount
    exact count_pos_iff.1 (hcount ▸ Nat.one_pos)
  have halone : drains s.stack = 0 := by
    have hone := h.draining
    rwa [hflag] at hone
  have hrunning (hne : s.stack ≠ []) (hsame : t.microtasks = s.microtasks) :
      t.ahead ≤ s.ahead ∧ (s.stack = [] → t.ahead < s.ahead) :=
    ⟨by rw [Loop.ahead, Loop.ahead, hsame], fun h => absurd h hne⟩
  have hmore (hne : s.stack ≠ []) (m : Microtask) (hsame : t.microtasks = s.microtasks ++ [m]) :
      t.ahead ≤ s.ahead ∧ (s.stack = [] → t.ahead < s.ahead) :=
    ⟨by rw [Loop.ahead, Loop.ahead, hsame, idxOf_append_of_mem hmem],
      fun h => absurd h hne⟩
  cases a with
  | enter =>
      simp only [step] at hstep
      split at hstep
      · next hidle =>
          rw [hidle.2] at hmem
          cases hmem
      · cases hstep
  | microtask =>
      simp only [step] at hstep
      split at hstep
      · next m rest hstack hmicrotasks =>
          cases hstep
          have hnearer (hm : m ≠ .drain) : rest.idxOf .drain < s.ahead := by
            rw [Loop.ahead, hmicrotasks, idxOf_cons_ne _ hm]
            exact Nat.lt_succ_self _
          cases m with
          | drain =>
              -- it would have called the first tick
              have hhistory := (drainGuestNextTicks_history none []
                (Loop.begun { s with microtasks := rest, tickDrainScheduled := false })).2
              rw [if_pos ⟨hflag, hticks⟩] at hhistory
              have hcalled : (runMicrotask .drain { s with microtasks := rest }).ran.length =
                s.ran.length + 1 := hhistory
              omega
          | endContinuation | job =>
              have hless := hnearer (by decide)
              exact ⟨hless.le, fun _ => hless⟩
      · cases hstep
  | queue =>
      refine hrunning (stack_ne_nil hstep) ?_
      rw [← of_running hstep, queueGuestNextTick, scheduleTickDrain, if_pos (.inl hscheduled)]
  | callback | execution | attempt => exact hrunning (stack_ne_nil hstep) (of_running hstep ▸ rfl)
  | resume =>
      have ht := of_running hstep
      rw [resumeGuestTurn] at ht
      split at ht
      · exact hrunning (stack_ne_nil hstep) (ht ▸ rfl)
      · exact hmore (stack_ne_nil hstep) .endContinuation (ht ▸ rfl)
  | job => exact hmore (stack_ne_nil hstep) .job (of_running hstep ▸ rfl)
  | ret =>
      refine hrunning (stack_ne_nil hstep) ?_
      have ht := of_running hstep
      rw [← ht] at hran ⊢
      exact returned_microtasks hflag hticks halone hran
  | throw =>
      refine hrunning (stack_ne_nil hstep) ?_
      rw [← of_running hstep, unwind_microtasks halone]

/-! ## Endless runs -/

/-- An endless run from a realm that has run nothing, in which every call ends. -/
structure Course where
  state : ℕ → Loop
  act : ℕ → Act
  first : state 0 = start
  next : ∀ t, step (state t) (act t) = some (state (t + 1))
  ends : ∀ t f rest, f :: rest <:+ (state t).stack → ∃ u, t < u ∧ ¬ f :: rest <:+ (state u).stack

namespace Course

variable (c : Course)

theorem reachable (t : ℕ) : Reachable (c.state t) := by
  induction t with
  | zero => exact ⟨[], by rw [c.first]; rfl⟩
  | succ t ih =>
      obtain ⟨as, has⟩ := ih
      refine ⟨as ++ [c.act t], ?_⟩
      rw [Machine.run_append, has]
      simp [Machine.run, c.next t]

theorem kept (t : ℕ) : Kept (c.state t) := (c.reachable t).kept

variable {t : ℕ}

theorem history {u : ℕ} (h : t ≤ u) :
    (c.state t).ran.length ≤ (c.state u).ran.length ∧ (c.state t).queued ≤ (c.state u).queued := by
  induction h with
  | refl => exact ⟨Nat.le_refl _, Nat.le_refl _⟩
  | @step u h ih =>
      have hstep := step_history (c.next u)
      exact ⟨ih.1.trans hstep.1, ih.2.trans hstep.2⟩

theorem exists_step {f : Frame} {rest : List Frame} (hsuffix : f :: rest <:+ (c.state t).stack) :
    ∃ u, t ≤ u ∧ f :: rest <:+ (c.state u).stack ∧ ¬ f :: rest <:+ (c.state (u + 1)).stack := by
  obtain ⟨v, hv, hnot⟩ := c.ends t f rest hsuffix
  by_contra hall
  push Not at hall
  have hstays : ∀ n, f :: rest <:+ (c.state (t + n)).stack := by
    intro n
    induction n with
    | zero => exact hsuffix
    | succ n ih => exact hall (t + n) (Nat.le_add_right t n) ih
  have hv' := hstays (v - t)
  rw [Nat.add_sub_cancel' hv.le] at hv'
  exact hnot hv'

/-! ## A tick that waits while none is run -/

section Stuck

variable {c} {t : ℕ} (hstuck : ∀ u, t ≤ u → (c.state u).ran.length = (c.state t).ran.length)

include hstuck

variable {u : ℕ}

theorem moves_of_stuck (hu : t ≤ u) : Moves (c.state u).stack (c.state (u + 1)).stack :=
  step_moves (c.next u) ((hstuck (u + 1) (Nat.le_succ_of_le hu)).trans (hstuck u hu).symm)

theorem exists_quiet : ∃ u, t ≤ u ∧ (c.state u).drainingTicks = false := by
  cases hflag : (c.state t).drainingTicks with
  | false => exact ⟨t, Nat.le_refl t, hflag⟩
  | true =>
      have hone := (c.kept t).draining
      rw [hflag] at hone
      obtain ⟨f, rest, hsuffix, hrest⟩ := exists_drain hone
      obtain ⟨u, hu, hbefore, hafter⟩ := c.exists_step hsuffix
      have hgone := ((moves_of_stuck hstuck hu).suffix hbefore).resolve_left hafter
      have hzero : drains (c.state (u + 1)).stack = 0 :=
        Nat.le_zero.1 (hrest ▸ drains_le_of_suffix hgone)
      refine ⟨u + 1, Nat.le_succ_of_le hu, ?_⟩
      have hone := (c.kept (u + 1)).draining
      rw [hzero] at hone
      cases hd : (c.state (u + 1)).drainingTicks with
      | false => rfl
      | true =>
          rw [hd] at hone
          cases hone

theorem quiet_of_quiet {v : ℕ} (hu : t ≤ u) (hquiet : (c.state u).drainingTicks = false)
    (huv : u ≤ v) : (c.state v).drainingTicks = false := by
  have hzero : drains (c.state v).stack = 0 := by
    induction huv with
    | refl =>
        have hone := (c.kept u).draining
        rwa [hquiet] at hone
    | @step v huv ih =>
        exact Nat.le_zero.1 (ih ▸ (moves_of_stuck hstuck (hu.trans huv)).drains_le)
  have hone := (c.kept v).draining
  rw [hzero] at hone
  cases hd : (c.state v).drainingTicks with
  | false => rfl
  | true =>
      rw [hd] at hone
      cases hone

theorem idle (hu : t ≤ u) : ∃ v, u ≤ v ∧ (c.state v).stack = [] := by
  generalize hlength : (c.state u).stack.length = n
  induction n using Nat.strong_induction_on generalizing u with
  | _ n ih =>
      cases hstack : (c.state u).stack with
      | nil => exact ⟨u, Nat.le_refl u, hstack⟩
      | cons f rest =>
          have hsuffix : f :: rest <:+ (c.state u).stack := hstack.symm ▸ suffix_refl _
          obtain ⟨v, hv, hbefore, hafter⟩ := c.exists_step hsuffix
          have hgone := ((moves_of_stuck hstuck (hu.trans hv)).suffix hbefore).resolve_left hafter
          have hless : (c.state (v + 1)).stack.length < n := by
            rw [← hlength, hstack]
            exact Nat.lt_succ_of_le hgone.length_le
          obtain ⟨w, hw, hnil⟩ := ih _ hless (hu.trans (Nat.le_succ_of_le hv)) rfl
          exact ⟨w, (Nat.le_succ_of_le hv).trans hw, hnil⟩

variable (hwaits : (c.state t).ran.length < (c.state t).queued)

include hwaits

theorem ticks_ne_nil (hu : t ≤ u) : (c.state u).ticks ≠ [] := by
  intro hnil
  have haccount := congrArg List.length (c.kept u).account
  rw [Loop.pending, hnil, drop_nil, append_nil, length_range, hstuck u hu]
    at haccount
  have hqueued := (c.history hu).2
  omega

/-- The drain that is scheduled comes to the front of the microtasks. -/
theorem not_waits (hu : t ≤ u) (hquiet : (c.state u).drainingTicks = false) : False := by
  have hstep (v : ℕ) (hv : u ≤ v) := step_of_wait (c.kept v) (quiet_of_quiet hstuck hu hquiet hv)
    (ticks_ne_nil hstuck hwaits (hu.trans hv)) (c.next v)
    ((hstuck (v + 1) (Nat.le_succ_of_le (hu.trans hv))).trans (hstuck v (hu.trans hv)).symm)
  have hahead {v w : ℕ} (hv : u ≤ v) (hvw : v ≤ w) :
      (c.state w).ahead ≤ (c.state v).ahead := by
    induction hvw with
    | refl => exact Nat.le_refl _
    | @step w hvw ih => exact ((hstep w (hv.trans hvw)).1).trans ih
  have hnever : ∀ n v, u ≤ v → (c.state v).ahead = n → False := by
    intro n
    induction n using Nat.strong_induction_on with
    | _ n ih =>
        intro v hv hn
        obtain ⟨w, hw, hnil⟩ := idle hstuck (hu.trans hv)
        have hless := (hstep w (hv.trans hw)).2 hnil
        have hle := hahead hv hw
        exact ih _ (by omega) (w + 1) (Nat.le_succ_of_le (hv.trans hw)) rfl
  exact hnever _ u (Nat.le_refl u) rfl

end Stuck

theorem progress (hwaits : (c.state t).ran.length < (c.state t).queued) :
    ∃ u, t ≤ u ∧ (c.state t).ran.length < (c.state u).ran.length := by
  by_contra hnone
  push Not at hnone
  have hstuck : ∀ u, t ≤ u → (c.state u).ran.length = (c.state t).ran.length :=
    fun u hu => Nat.le_antisymm (hnone u hu) (c.history hu).1
  obtain ⟨u, hu, hquiet⟩ := exists_quiet hstuck
  exact not_waits hstuck hwaits hu hquiet

theorem exists_length {n : ℕ} (hn : n ≤ (c.state t).queued) :
    ∃ u, t ≤ u ∧ n ≤ (c.state u).ran.length := by
  generalize hleft : n - (c.state t).ran.length = left
  induction left using Nat.strong_induction_on generalizing t with
  | _ left ih =>
      by_cases hdone : n ≤ (c.state t).ran.length
      · exact ⟨t, Nat.le_refl t, hdone⟩
      · obtain ⟨u, hu, hmore⟩ := c.progress (Nat.lt_of_lt_of_le (Nat.lt_of_not_le hdone) hn)
        obtain ⟨v, hv, hall⟩ := ih _ (by omega) (hn.trans (c.history hu).2) rfl
        exact ⟨v, hu.trans hv, hall⟩

end Course

/-! ## The ticks, once and in order -/

/-- The queued ticks are those that were run and those that wait, in order. A drain is
scheduled for ticks that no drain is at. An exception keeps each later tick queued and
scheduled. What waits at a callback's drain, the tick it runs with it, was queued after
the callback was entered. -/
structure InOrder (s : Loop) : Prop where
  account : s.ran ++ s.pending = List.range s.queued
  scheduled : s.drainingTicks = false → s.ticks ≠ [] → .drain ∈ s.microtasks
  thrown : ∀ t, step s .throw = some t → t.ran = s.ran ∧ t.pending = s.pending ∧
    (t.drainingTicks = false → t.pending ≠ [] → .drain ∈ t.microtasks)
  own : ∀ n mark, .tick n (some mark) ∈ s.stack → ∀ x ∈ s.ticks, mark ≤ x

theorem Kept.drain_mem (h : Kept s) (hflag : s.drainingTicks = false)
    (hticks : s.ticks ≠ []) : .drain ∈ s.microtasks := by
  have hcount := h.scheduled
  rw [h.waits hflag hticks] at hcount
  exact count_pos_iff.1 (hcount ▸ Nat.one_pos)

theorem Kept.inOrder (h : Kept s) : InOrder s := by
  refine ⟨h.account, h.drain_mem, fun t ht => ?_, fun n mark hmem => (h.marks _ hmem mark rfl).2⟩
  have hkept := step_kept s .throw t h ht
  obtain ⟨hran, hqueued⟩ := unwind_history s.stack s
  rw [of_running ht] at hran hqueued
  have haccount := hkept.account
  rw [hran, hqueued, ← h.account] at haccount
  refine ⟨hran, append_cancel_left haccount, fun hflag hpending => ?_⟩
  refine hkept.drain_mem hflag fun hnil => hpending ?_
  rw [Loop.pending, hnil, drop_nil]

/-- In every state the ticks are in order, and each tick that is queued is run. -/
theorem ticks_run_in_order :
    (∀ s, Reachable s → InOrder s) ∧
      ∀ (c : Course) (t x : ℕ), x < (c.state t).queued → ∃ u, x ∈ (c.state u).ran := by
  refine ⟨fun s hs => hs.kept.inOrder, fun c t x hx => ?_⟩
  obtain ⟨u, -, hu⟩ := c.exists_length hx
  refine ⟨u, ?_⟩
  have hprefix : (c.state u).ran <+: List.range (c.state u).queued :=
    ⟨_, (c.kept u).account⟩
  have hget := hprefix.getElem hu
  rw [getElem_range] at hget
  exact hget ▸ getElem_mem hu

def idleLoop : Loop := { start with queued := 1, ran := [0] }

/-- The states of a program that queues a tick, and after it of code that does nothing,
again and again. -/
def oneTick : ℕ → Loop
  | 0 => start
  | 1 => start.push .entry
  | 2 => (start.push .entry).queueGuestNextTick
  | 3 => start.queueGuestNextTick
  | 4 => runMicrotask .drain { start.queueGuestNextTick with microtasks := [] }
  | t + 5 => if t % 2 = 0 then idleLoop else idleLoop.push .entry

def oneTickAct : ℕ → Act
  | 0 => .enter
  | 1 => .queue
  | 2 => .ret
  | 3 => .microtask
  | 4 => .ret
  | t + 5 => if t % 2 = 0 then .enter else .ret

theorem next_oneTick : ∀ t, step (oneTick t) (oneTickAct t) = some (oneTick (t + 1))
  | 0 => rfl
  | 1 => rfl
  | 2 => rfl
  | 3 => rfl
  | 4 => rfl
  | t + 5 => by
      rcases Nat.mod_two_eq_zero_or_one t with h | h
      · have hnext : (t + 1) % 2 = 1 := by omega
        rw [oneTick, oneTick, oneTickAct, if_pos h, if_pos h, if_neg (by omega)]
        rfl
      · have hnext : (t + 1) % 2 = 0 := by omega
        rw [oneTick, oneTick, oneTickAct, if_neg (by omega), if_neg (by omega), if_pos hnext]
        rfl

def oneTickCourse : Course where
  state := oneTick
  act := oneTickAct
  first := rfl
  next := next_oneTick
  ends t f rest _ := by
    refine ⟨2 * t + 5, by omega, ?_⟩
    rw [oneTick, if_pos (by omega)]
    intro h
    cases suffix_nil.1 h

theorem ticks_run_in_order_oneTick :
    InOrder (oneTick 4) ∧ ∃ u, 0 ∈ (oneTickCourse.state u).ran :=
  ⟨ticks_run_in_order.1 (oneTick 4) ⟨[.enter, .queue, .ret, .microtask], rfl⟩,
    ticks_run_in_order.2 oneTickCourse 2 0 Nat.one_pos⟩

end GuestLoop

end Tabnode
