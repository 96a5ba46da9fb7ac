import Tabnode.GuestTimers.Timers

/-!
# What holds a program

The counted set is that of the armed timers whose last of `ref` and `unref` was not
`unref`, no callback runs after a clear or a stop, and a one-shot runs once: this is so
in every state of the runs whose steps meet `Counts` (`run_counted`). A `ref` of a timer
that fired or was cleared is counted for ever (`ref_after_fire`), as is a timer that is
cleared by its primitive id, and a stop leaves the timers that were unreferenced.
-/

namespace Tabnode

namespace GuestTimers

open List

def Timer.counts (t : Timer) : Bool := t.armed && t.referenced

/-- The counted set is right, and callbacks run when they may. -/
structure Counted (s : Timers) : Prop where
  held : ∀ i, i ∈ s.held ↔ ∃ t, s.timers[i]? = some t ∧ t.armed = true ∧ t.referenced = true
  inTime : ∀ t ∈ s.timers, t.late = false
  once : ∀ t ∈ s.timers, t.kind ≠ .interval → t.runs ≤ 1

/-- A step that keeps the count right: what is referenced is armed; what a clear takes out
of the count by its handle the host ends, and what it is given by its id is not counted or
not ended; and at a stop no armed timer is unreferenced. -/
def Counts (host : Host) (s : Timers) : Act → Prop
  | .ref i => ∀ t ∈ s.timers[i]?, t.live = true
  | .clear f (.handle i) => ∀ t ∈ s.timers[i]?, i ∈ s.held → host.ends f t.kind = true
  | .clear f (.id i) => ∀ t ∈ s.timers[i]?, i ∈ s.held → host.ends f t.kind = false
  | .stop => ∀ t ∈ s.timers, t.live = true → t.referenced = true
  | _ => True

/-- What holds of a timer: the host has armed it where it is armed. -/
structure Timer.Sound (t : Timer) : Prop where
  live : t.live = t.armed
  inTime : t.late = false
  once : t.kind ≠ .interval → t.runs ≤ 1

/-- What a run keeps. -/
structure Kept (s : Timers) : Prop where
  held : ∀ i, i ∈ s.held ↔ ∃ t, s.timers[i]? = some t ∧ t.counts = true
  sound : ∀ (i : ℕ) (t : Timer), s.timers[i]? = some t → t.Sound

variable {s : Timers}

theorem Kept.counted (h : Kept s) : Counted s := by
  refine ⟨fun i => ?_, fun t ht => ?_, fun t ht => ?_⟩
  · rw [h.held i]
    simp only [Timer.counts, Bool.and_eq_true]
  · obtain ⟨i, hi⟩ := mem_iff_getElem?.1 ht
    exact (h.sound i t hi).inTime
  · obtain ⟨i, hi⟩ := mem_iff_getElem?.1 ht
    exact (h.sound i t hi).once

theorem kept_start : Kept start := by
  refine ⟨fun i => ?_, fun i t ht => ?_⟩
  · simp [start]
  · simp [start] at ht

variable {i : ℕ}

theorem Kept.change (h : Kept s) {f : Timer → Timer} {held : Finset ℕ}
    (hother : ∀ j, j ≠ i → (j ∈ held ↔ j ∈ s.held))
    (hsound : ∀ t, s.timers[i]? = some t → (f t).Sound)
    (hheld : i ∈ held ↔ ∃ t, s.timers[i]? = some t ∧ (f t).counts = true) :
    Kept { s.change i f with held := held } := by
  have hget (j : ℕ) : (s.change i f).timers[j]? =
      if i = j then (s.timers[j]?).map f else s.timers[j]? := by
    rw [Timers.change, getElem?_modify]
    split <;> simp
  refine ⟨fun j => ?_, fun j t ht => ?_⟩
  · show j ∈ held ↔ ∃ t, (s.change i f).timers[j]? = some t ∧ t.counts = true
    rw [hget]
    by_cases hij : i = j
    · subst hij
      rw [if_pos rfl, hheld]
      simp only [Option.map_eq_some_iff]
      constructor
      · rintro ⟨t, ht, hc⟩
        exact ⟨f t, ⟨t, ht, rfl⟩, hc⟩
      · rintro ⟨t, ⟨u, hu, rfl⟩, hc⟩
        exact ⟨u, hu, hc⟩
    · rw [if_neg hij, hother j (Ne.symm hij)]
      exact h.held j
  · change (s.change i f).timers[j]? = some t at ht
    rw [hget] at ht
    by_cases hij : i = j
    · subst hij
      rw [if_pos rfl, Option.map_eq_some_iff] at ht
      obtain ⟨u, hu, rfl⟩ := ht
      exact hsound u hu
    · rw [if_neg hij] at ht
      exact h.sound j t ht

theorem Kept.setTimer (h : Kept s) (kind : Kind) : Kept (setTimer kind s) := by
  have hnew : (Timer.set kind).Sound :=
    ⟨by cases kind <;> rfl, rfl, fun _ => Nat.zero_le 1⟩
  have hcounts : (Timer.set kind).counts = true := by cases kind <;> rfl
  refine ⟨fun i => ?_, fun i t ht => ?_⟩
  · show i ∈ insert s.timers.length s.held ↔
      ∃ t, (s.timers ++ [.set kind])[i]? = some t ∧ t.counts = true
    rw [Finset.mem_insert, h.held i]
    rcases Nat.lt_trichotomy i s.timers.length with hlt | rfl | hlt
    · rw [getElem?_append_left hlt]
      exact or_iff_right hlt.ne
    · rw [getElem?_concat_length]
      simp [hcounts]
    · have hnone : s.timers[i]? = none := getElem?_eq_none_iff.2 hlt.le
      have hnone' : (s.timers ++ [.set kind])[i]? = none := by
        rw [getElem?_eq_none_iff, length_append]
        exact hlt
      simp [hnone, hnone', hlt.ne']
  · change (s.timers ++ [.set kind])[i]? = some t at ht
    rw [getElem?_append] at ht
    split at ht
    · exact h.sound i t ht
    · obtain ⟨hlt, rfl⟩ := List.getElem?_eq_some_iff.1 ht
      simpa using hnew

variable {t : Timer}

theorem Timer.Sound.clear (h : t.Sound) (host : Host) (f : Clear) : (t.clear host f).Sound := by
  rw [Timer.clear]
  split
  · exact ⟨rfl, h.inTime, h.once⟩
  · exact h

/-- A timer that a clear ends is not counted; another is as it was. -/
theorem counts_clear (host : Host) (f : Clear) (t : Timer) :
    (t.clear host f).counts = (t.counts && !host.ends f t.kind) := by
  rw [Timer.clear]
  split
  · next he => simp [Timer.counts, Timer.armed, he]
  · next he => simp [he]

variable {host : Host}

theorem Kept.clearTimer (h : Kept s) {f : Clear} {given : Given}
    (hok : Counts host s (.clear f given)) : Kept (clearTimer host f given s) := by
  cases given with
  | other => exact h
  | handle i =>
      refine h.change (fun j hj => ?_) (fun t ht => (h.sound i t ht).clear host f) ?_
      · exact ⟨Finset.mem_of_mem_erase, fun hmem => Finset.mem_erase.2 ⟨hj, hmem⟩⟩
      · refine iff_of_false (Finset.notMem_erase i _) ?_
        rintro ⟨t, ht, hc⟩
        rw [counts_clear, Bool.and_eq_true] at hc
        have hends := hok t ht ((h.held i).2 ⟨t, ht, hc.1⟩)
        simp [hends] at hc
  | id i =>
      refine h.change (fun j hj => Iff.rfl) (fun t ht => (h.sound i t ht).clear host f) ?_
      rw [h.held i]
      constructor
      · rintro ⟨t, ht, hc⟩
        refine ⟨t, ht, ?_⟩
        rw [counts_clear, hc, hok t ht ((h.held i).2 ⟨t, ht, hc⟩)]
        rfl
      · rintro ⟨t, ht, hc⟩
        rw [counts_clear, Bool.and_eq_true] at hc
        exact ⟨t, ht, hc.1⟩

theorem Kept.ref (h : Kept s) (hi : i < s.timers.length)
    (hok : Counts host s (.ref i)) : Kept (ref i s) := by
  have hget := getElem?_eq_getElem hi
  refine h.change (fun j hj => ?_) (fun t ht => ?_) ?_
  · rw [Finset.mem_insert]
    exact or_iff_right hj
  · exact ⟨(h.sound i t ht).live, (h.sound i t ht).inTime, (h.sound i t ht).once⟩
  · refine iff_of_true (Finset.mem_insert_self i _) ⟨_, hget, ?_⟩
    have harmed := (h.sound i _ hget).live.symm.trans (hok _ hget)
    show (Timer.armed _ && true) = true
    rw [Bool.and_true]
    exact harmed

theorem Kept.unref (h : Kept s) (i : ℕ) : Kept (unref i s) := by
  refine h.change (fun j hj => ?_) (fun t ht => ?_) ?_
  · exact ⟨Finset.mem_of_mem_erase, fun hmem => Finset.mem_erase.2 ⟨hj, hmem⟩⟩
  · exact ⟨(h.sound i t ht).live, (h.sound i t ht).inTime, (h.sound i t ht).once⟩
  · refine iff_of_false (Finset.notMem_erase i _) ?_
    rintro ⟨t, ht, hc⟩
    simp [Timer.counts] at hc

theorem Kept.stopGuestTimers (h : Kept s)
    (hok : Counts host s .stop) : Kept (stopGuestTimers s) := by
  have hget (i : ℕ) : (GuestTimers.stopGuestTimers s).timers[i]? = (s.timers[i]?).map fun t =>
      { t with live := t.live && !decide (i ∈ s.held), stopped := true } := by
    simp [GuestTimers.stopGuestTimers]
  refine ⟨fun i => ?_, fun i t ht => ?_⟩
  · refine iff_of_false (by simp [GuestTimers.stopGuestTimers]) ?_
    rintro ⟨t, ht, hc⟩
    rw [hget, Option.map_eq_some_iff] at ht
    obtain ⟨u, -, rfl⟩ := ht
    simp [Timer.counts, Timer.armed] at hc
  · rw [hget, Option.map_eq_some_iff] at ht
    obtain ⟨u, hu, rfl⟩ := ht
    refine ⟨?_, (h.sound i u hu).inTime, (h.sound i u hu).once⟩
    -- what is armed is referenced, so it is counted and cleared
    have hdead : (u.live && !decide (i ∈ s.held)) = false := by
      cases hlive : u.live with
      | false => rfl
      | true =>
          have hmem : i ∈ s.held := by
            refine (h.held i).2 ⟨u, hu, ?_⟩
            rw [Timer.counts, ← (h.sound i u hu).live, hlive,
              hok u (mem_of_getElem? hu) hlive]
            rfl
          simp [hmem]
    rw [hdead]
    simp [Timer.armed]

theorem Timer.Sound.fire (h : t.Sound) (hlive : t.live = true) : t.fire.Sound := by
  have harmed := h.live.symm.trans hlive
  simp only [Timer.armed, Bool.and_eq_true, Bool.not_eq_true', Bool.or_eq_true,
    decide_eq_true_eq] at harmed
  obtain ⟨⟨hcleared, hstopped⟩, hruns⟩ := harmed
  refine ⟨?_, ?_, fun hk => ?_⟩
  · simp [Timer.fire, Timer.armed, hcleared, hstopped]
  · simp [Timer.fire, h.inTime, hcleared, hstopped]
  · show t.runs + 1 ≤ 1
    rw [hruns.resolve_left hk]

theorem Kept.fire (h : Kept s) (ht : s.timers[i]? = some t)
    (hlive : t.live = true) : Kept (fire i t s) := by
  have hsame {u : Timer} (hu : s.timers[i]? = some u) : u = t :=
    Option.some.inj (hu.symm.trans ht)
  refine h.change (fun j hj => ?_) (fun u hu => ?_) ?_
  · split
    · rfl
    · exact ⟨Finset.mem_of_mem_erase, fun hmem => Finset.mem_erase.2 ⟨hj, hmem⟩⟩
  · rw [hsame hu]
    exact (h.sound i t ht).fire hlive
  · have hfired := (h.sound i t ht).fire hlive
    have harmed := (h.sound i t ht).live.symm.trans hlive
    split
    · next hk =>
        -- an interval stays armed
        have hagain : t.fire.armed = true := by
          rw [← hfired.live]
          exact decide_eq_true hk
        rw [h.held i]
        simp only [ht, Option.some.injEq, exists_eq_left', Timer.counts, harmed, hagain]
        rfl
    · next hk =>
        have hdone : t.fire.armed = false := by
          rw [← hfired.live]
          exact decide_eq_false hk
        refine iff_of_false (Finset.notMem_erase i _) ?_
        rintro ⟨u, hu, hc⟩
        rw [hsame hu, Timer.counts, hdone] at hc
        cases hc

theorem step_kept (host : Host) (s : Timers) (a : Act) (t : Timers) (h : Kept s)
    (hok : Counts host s a) (hstep : step host s a = some t) : Kept t := by
  cases a with
  | set kind =>
      cases hstep
      exact h.setTimer kind
  | clear f given =>
      simp only [step] at hstep
      split at hstep
      · cases hstep
        exact h.clearTimer hok
      · cases hstep
  | ref i =>
      simp only [step] at hstep
      split at hstep
      · next hi =>
          cases hstep
          exact h.ref hi hok
      · cases hstep
  | unref i =>
      simp only [step] at hstep
      split at hstep
      · cases hstep
        exact h.unref i
      · cases hstep
  | stop =>
      cases hstep
      exact h.stopGuestTimers hok
  | fire i =>
      simp only [step] at hstep
      split at hstep
      · next u hu =>
          split at hstep
          · next hlive =>
              cases hstep
              exact h.fire hu hlive
          · cases hstep
      · cases hstep

/-- In every state of a run whose steps keep the count right, it is right. -/
theorem run_counted (host : Host) {as : List Act} {s : Timers}
    (hok : Machine.Meets (step host) (Counts host) start as)
    (h : Machine.run (step host) start as = some s) : Counted s :=
  (Machine.invariant_of_meets (step_kept host) kept_start hok h).counted

def plainHost : Host where
  ends := Clear.own
  own _ _ h := h

instance decidableCounts (host : Host) (s : Timers) : (a : Act) → Decidable (Counts host s a)
  | .ref i => inferInstanceAs (Decidable (∀ t ∈ s.timers[i]?, t.live = true))
  | .clear f (.handle i) =>
      inferInstanceAs (Decidable (∀ t ∈ s.timers[i]?, i ∈ s.held → host.ends f t.kind = true))
  | .clear f (.id i) =>
      inferInstanceAs (Decidable (∀ t ∈ s.timers[i]?, i ∈ s.held → host.ends f t.kind = false))
  | .stop => inferInstanceAs (Decidable (∀ t ∈ s.timers, t.live = true → t.referenced = true))
  | .set _ => .isTrue trivial
  | .clear _ .other => .isTrue trivial
  | .unref _ => .isTrue trivial
  | .fire _ => .isTrue trivial

/-- An interval and an immediate: the interval is unreferenced, fires and is referenced
again, the immediate is cleared by its handle, and the process is stopped. -/
def plainRun : List Act :=
  [.set .interval, .set .immediate, .unref 0, .fire 0, .ref 0, .clear .clearImmediate (.handle 1),
    .stop]

def plainEnd : Timers where
  timers :=
    [{ kind := .interval, live := false, referenced := true, cleared := false, stopped := true,
        runs := 1, late := false },
      { kind := .immediate, live := false, referenced := true, cleared := true, stopped := true,
        runs := 0, late := false }]
  held := ∅

theorem run_counted_plainRun : Counted plainEnd :=
  @run_counted plainHost plainRun plainEnd (by decide) (by decide)

/-- A timeout that fired and is then referenced is counted, though it is not armed. -/
theorem ref_after_fire :
    ¬ ∀ (host : Host) (as : List Act) (s : Timers),
      Machine.run (step host) start as = some s → Counted s := by
  intro h
  have hcounted := h plainHost [.set .timeout, .fire 0, .ref 0]
    ⟨[{ Timer.set .timeout with live := false, runs := 1 }], {0}⟩ (by decide)
  obtain ⟨t, ht, harmed, -⟩ := (hcounted.held 0).1 (Finset.mem_singleton_self 0)
  cases ht
  cases harmed

end GuestTimers

end Tabnode
