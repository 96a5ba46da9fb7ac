import Tabnode.ChildInput.Child

/-!
# A child is given what its parent wrote

`Sound` is kept by every step: what the child was given and what waits are one queue with
the parent's writes, and no chunk waits at a sink without a flush, unless the sink rejected
a chunk and nothing was begun since.
-/

namespace Tabnode

namespace ChildInput

open Fifo List Option

variable {β : Type*}

/-- What the fields of a child's input say of one another, its flush aside. -/
structure Kept (c : Child β) : Prop where
  flow : Flow (if c.started then [] else c.initialStdin.flatten) c.pendingStdin c.history c.ended
  /-- The end waits or was given from the time the parent ends. -/
  comes : c.ended = true → c.finished = false → none ∈ c.pendingStdin ∨ .eof ∈ c.history
  early : c.started = false → .eof ∉ c.history
  /-- Nothing waits behind the launch before the child began, and the end begins it. -/
  unstarted : c.started = false → c.kind ≠ .hostTerminal →
    c.pendingStdin = [] ∧ (c.finished = false → c.ended = false ∧ c.stdinOpen = true)
  terminal : c.kind = .hostTerminal → c.initialStdin = []
  live : c.liveInput = true ↔ c.kind = .hostProgram ∧ c.started = true
  sinkless : c.kind.pulls = true → c.stdinSink = none
  waiting : c.hostInput = .waiting → c.pendingStdin = []
  returned : c.hostInput = .returned → c.finished = true ∨ .eof ∈ c.history
  pulling : c.hostInput ≠ .idle → c.kind.pulls = true ∧ c.started = true

def Flushed (c : Child β) : Prop :=
  c.pendingStdin ≠ [] → c.stdinSink ≠ none → c.finished = false →
    c.flushingInput ≠ none ∨ c.refused = true

/-- A child's input is in order. -/
structure Sound (c : Child β) : Prop where
  kept : Kept c
  flushed : Flushed c

variable {c : Child β} {bytes : List β} {sink : RunStdin}

/-! ## Flushes -/

theorem flushLoop_push (pending : List (Option (List β))) :
    Child.flushLoop false pending = (pending.map given, [], false) := by
  induction pending with
  | nil => rfl
  | cons chunk pending ih => simp [Child.flushLoop, ih]

theorem flushStdin_eq (hflushing : c.flushingInput = none) (hsink : c.stdinSink = some sink)
    (hfinished : c.finished = false) :
    ∃ events left waits, Child.flushLoop sink.writeAsync c.pendingStdin = (events, left, waits) ∧
      c.flushStdin = { c with
        pendingStdin := left
        flushingInput := if waits then some [] else none
        refused := false
        history := c.history ++ events } := by
  refine ⟨_, _, _, rfl, ?_⟩
  unfold Child.flushStdin
  rw [hflushing, hsink]
  simp only [hfinished, Bool.false_eq_true, if_false]

/-- A flush that waits, has no sink or comes too late does nothing. -/
theorem flushStdin_eq_self
    (h : c.flushingInput ≠ none ∨ c.stdinSink = none ∨ c.finished = true) : c.flushStdin = c := by
  unfold Child.flushStdin
  split
  · rfl
  · rfl
  · rename_i hflushing hsink
    rcases h with h | h | h
    · exact absurd hflushing h
    · simp [hsink] at h
    · rw [if_pos h]

/-- What a flush leaves is in order, and it waits if anything is left. -/
theorem flow_flushLoop {writeAsync : Bool} {pending left : List (Option (List β))}
    {history events : List (Event β)} {ended waits : Bool}
    (h : Flow [] pending history ended)
    (hloop : Child.flushLoop writeAsync pending = (events, left, waits)) :
    Flow [] left (history ++ events) ended ∧ (left ≠ [] → waits = true) ∧
      (none ∈ pending → none ∈ left ∨ .eof ∈ events) := by
  cases writeAsync with
  | false =>
    rw [flushLoop_push] at hloop
    cases hloop
    exact ⟨h.giveAll, fun hleft => absurd rfl hleft,
      fun hnone => .inr (mem_map.2 ⟨none, hnone, rfl⟩)⟩
  | true =>
    cases pending with
    | nil =>
      cases hloop
      exact ⟨by simpa using h, fun hleft => absurd rfl hleft, fun hnone => .inl hnone⟩
    | cons chunk pending =>
      cases hloop
      refine ⟨h.give, fun _ => rfl, fun hnone => ?_⟩
      rcases mem_cons.1 hnone with rfl | hrest
      · exact .inr mem_cons_self
      · exact .inl hrest

/-- A flush keeps a child's input, and leaves nothing waiting without one. -/
theorem Kept.flush (hc : Kept c) : Sound c.flushStdin := by
  by_cases hidle : c.flushingInput ≠ none ∨ c.stdinSink = none ∨ c.finished = true
  · rw [flushStdin_eq_self hidle]
    refine ⟨hc, fun _ hsink hfinished => ?_⟩
    rcases hidle with h | h | h
    · exact .inl h
    · exact absurd h hsink
    · exact Bool.noConfusion (h.symm.trans hfinished)
  · simp only [not_or, ne_eq, not_not, Bool.not_eq_true] at hidle
    obtain ⟨hflushing, hsome, hfinished⟩ := hidle
    obtain ⟨sink, hsink⟩ := ne_none_iff_exists'.1 hsome
    have hpulls : c.kind.pulls = false := by
      by_contra h
      exact hsome (hc.sinkless (by simpa using h))
    have hterminal : c.kind ≠ .hostTerminal := by
      intro h
      simp [h, Kind.pulls] at hpulls
    obtain ⟨events, left, waits, hloop, heq⟩ := flushStdin_eq hflushing hsink hfinished
    rw [heq]
    cases hstarted : c.started with
    | false =>
      have hpending := (hc.unstarted hstarted hterminal).1
      rw [hpending] at hloop
      cases hloop
      refine ⟨⟨?_, ?_, ?_, ?_, hc.terminal, ?_, hc.sinkless, fun _ => rfl, ?_, ?_⟩,
        fun h => absurd rfl h⟩
      · simpa [hstarted, hpending] using hc.flow
      · simpa [hpending] using hc.comes
      · exact fun _ => by simpa using hc.early hstarted
      · exact fun _ => by simpa [hpending] using hc.unstarted hstarted
      · simpa [hstarted] using hc.live
      · simpa using hc.returned
      · simpa [hstarted] using hc.pulling
    | true =>
      have hflow : Flow [] c.pendingStdin c.history c.ended := by simpa [hstarted] using hc.flow
      obtain ⟨hflow', hwaits, hnone⟩ := flow_flushLoop hflow hloop
      have heof : .eof ∈ c.history → .eof ∈ c.history ++ events :=
        mem_append_left events
      refine ⟨⟨by simpa [hstarted] using hflow', fun hended _ => ?_, by simp, by simp, hc.terminal, by simpa [hstarted] using hc.live, hc.sinkless,
        fun hwaiting => ?_, fun hreturned => (hc.returned hreturned).imp_right heof,
        fun hpulling => ⟨(hc.pulling hpulling).1, rfl⟩⟩, fun hleft _ _ => ?_⟩
      · rcases hc.comes hended hfinished with h | h
        · exact (hnone h).imp_right (mem_append_right c.history)
        · exact .inr (heof h)
      · have hpending := hc.waiting hwaiting
        rw [hpending] at hloop
        cases sink with
        | mk id writeAsync => cases writeAsync <;> cases hloop <;> rfl
      · left
        simp [hwaits hleft]

theorem Sound.watch (hc : Sound c) : Sound (c.watch sink) where
  kept := ⟨hc.kept.1, hc.kept.2, hc.kept.3, hc.kept.4, hc.kept.5, hc.kept.6, hc.kept.7,
    hc.kept.8, hc.kept.9, hc.kept.10⟩
  flushed hpending hsink hfinished := by
    refine (hc.flushed hpending hsink hfinished).imp_left fun hflushing hnone => ?_
    exact hflushing (map_eq_none_iff.1 hnone)

theorem Kept.sound_of_pulls (hc : Kept c) (hpulls : c.kind.pulls = true) : Sound c :=
  ⟨hc, fun _ hsink => absurd (hc.sinkless hpulls) hsink⟩

/-! ## Wakes -/

/-- A wake leaves all but where `hostInput` stands, which waits no more. -/
theorem Kept.wake (hc : ∀ h : HostInput, h ≠ .waiting → (h = .returned → c.hostInput = .returned) →
    (h ≠ .idle → c.hostInput ≠ .idle) → Kept { c with hostInput := h }) : Kept c.wakeInput := by
  unfold Child.wakeInput
  split
  · rename_i hwaiting
    exact hc .woken (by simp) (by simp) (by simp [hwaiting])
  · rename_i hnot
    exact hc c.hostInput hnot id id

/-! ## The parent -/

/-- A chunk or the end is put behind what `hostInput` has to give. -/
theorem Kept.pushHost {chunk : Option (List β)} {ended : Bool} {events : List (Event β)}
    (hc : Kept c) (hpulls : c.kind.pulls = true)
    (hplace : c.kind = .hostTerminal ∨ c.liveInput = true)
    (hflow : Flow (if c.started then [] else c.initialStdin.flatten) (c.pendingStdin ++ [chunk])
      (c.history ++ events) ended)
    (hevents : .eof ∉ events) (hcomes : ended = true → none ∈ c.pendingStdin ++ [chunk]) :
    Sound (({ c with ended := ended, history := c.history ++ events }.push chunk).wakeInput) := by
  have heof : .eof ∈ c.history ++ events ↔ .eof ∈ c.history := by simp [hevents]
  have hkept : Kept (({ c with ended := ended, history := c.history ++ events }.push
      chunk).wakeInput) := by
    refine Kept.wake fun h hwaiting hreturned hidle => ?_
    exact {
      flow := hflow
      comes := fun hended _ => .inl (hcomes hended)
      early := fun hstarted he => hc.early hstarted (heof.1 he)
      unstarted := fun hstarted hterminal => by
        rcases hplace with hkind | hlive
        · exact absurd hkind hterminal
        · exact Bool.noConfusion (hstarted.symm.trans (hc.live.1 hlive).2)
      terminal := hc.terminal
      live := hc.live
      sinkless := hc.sinkless
      waiting := fun h => absurd h hwaiting
      returned := fun h => (hc.returned (hreturned h)).imp_right heof.2
      pulling := fun h => hc.pulling (hidle h) }
  exact ⟨hkept, fun _ hsink => absurd (hkept.sinkless (by
    unfold Child.wakeInput
    split <;> exact hpulls)) hsink⟩

/-- A chunk or the end is put behind what a sink has to be given. -/
theorem Kept.pushSink {chunk : Option (List β)} {ended : Bool} {events : List (Event β)}
    (hc : Kept c) (hstarted : c.started = true)
    (hplace : ¬ (c.kind = .hostTerminal ∨ c.liveInput = true))
    (hflow : Flow (if c.started then [] else c.initialStdin.flatten) (c.pendingStdin ++ [chunk])
      (c.history ++ events) ended)
    (hcomes : ended = true → none ∈ c.pendingStdin ++ [chunk]) :
    Kept ({ c with ended := ended, history := c.history ++ events }.push chunk) := by
  have hprogram : c.kind ≠ .hostProgram := fun h => hplace (.inr (hc.live.2 ⟨h, hstarted⟩))
  have hpulls : c.kind.pulls = false := by
    cases hkind : c.kind <;> simp_all [Kind.pulls]
  exact {
    flow := hflow
    comes := fun hended _ => .inl (hcomes hended)
    early := fun h => Bool.noConfusion (hstarted.symm.trans h)
    unstarted := fun h => Bool.noConfusion (hstarted.symm.trans h)
    terminal := hc.terminal
    live := hc.live
    sinkless := hc.sinkless
    waiting := fun h => by
      have hidle := hc.pulling (by simp [show c.hostInput = .waiting from h])
      exact Bool.noConfusion (hpulls.symm.trans hidle.1)
    returned := fun h => (hc.returned h).imp_right (mem_append_left events)
    pulling := hc.pulling }

theorem Sound.write (hc : Sound c) (hended : c.ended = false) : Sound (c.writeStdin bytes) := by
  have hflow := hc.kept.flow
  rw [hended] at hflow
  unfold Child.writeStdin
  dsimp only [Child.note]
  split
  · rename_i hplace
    have hpulls : c.kind.pulls = true := by
      rcases hplace with hkind | hlive
      · simp [hkind, Kind.pulls]
      · simp [(hc.kept.live.1 hlive).1, Kind.pulls]
    exact hc.kept.pushHost hpulls hplace (hended ▸ hflow.write) (by simp)
      fun h => Bool.noConfusion (hended.symm.trans h)
  · rename_i hplace
    have hterminal : c.kind ≠ .hostTerminal := fun h => hplace (.inl h)
    split
    · rename_i hnot
      have hstarted : c.started = false := by simpa using hnot
      have hpending := (hc.kept.unstarted hstarted hterminal).1
      have hearly : Flow (c.initialStdin ++ [bytes]).flatten [] (c.history ++ [.write bytes])
          c.ended := by
        rw [hstarted, hpending] at hflow
        have hwrite : Flow (c.initialStdin.flatten ++ bytes) [] _ false := hflow.writeEarly
        simpa [hended] using hwrite
      refine ⟨⟨?_, ?_, ?_, hc.kept.unstarted, fun h => absurd h hterminal, hc.kept.live,
        hc.kept.sinkless, hc.kept.waiting, ?_, hc.kept.pulling⟩, ?_⟩
      · simpa [hstarted, hpending] using hearly
      · exact fun h => Bool.noConfusion (hended.symm.trans h)
      · simpa using hc.kept.early
      · simpa using hc.kept.returned
      · exact fun h => absurd hpending h
    · rename_i hnot
      have hstarted : c.started = true := by simpa using hnot
      refine (hc.kept.pushSink hstarted hplace (hended ▸ hflow.write) ?_).flush
      exact fun h => Bool.noConfusion (hended.symm.trans h)

/-! ## The launch -/

/-- A Node child, or one at a host's terminal, has no live input. -/
theorem Kept.not_live (hc : Kept c) (hstarted : c.started = false) : c.liveInput = false := by
  by_contra h
  exact Bool.noConfusion (hstarted.symm.trans (hc.live.1 (by simpa using h)).2)

theorem Kept.idle (hc : Kept c) (hstarted : c.started = false) : c.hostInput = .idle := by
  by_contra h
  exact Bool.noConfusion (hstarted.symm.trans (hc.pulling h).2)

/-- A program that its host runs begins: what was written waits for `hostInput`. -/
theorem Kept.beginProgram (hc : Kept c) (hkind : c.kind = .hostProgram)
    (hstarted : c.started = false) (hended : c.ended = false) :
    Kept { c with
      started := true
      liveInput := true
      pendingStdin := c.initialStdin.map some ++ c.pendingStdin
      initialStdin := [] } := by
  have hpending := (hc.unstarted hstarted (by simp [hkind])).1
  have hidle := hc.idle hstarted
  have hflow := hc.flow
  rw [hstarted, hpending] at hflow
  exact {
    flow := by simpa [hpending] using Flow.unshift hflow (hc.early hstarted)
    comes := fun h => Bool.noConfusion (hended.symm.trans h)
    early := fun h => Bool.noConfusion h
    unstarted := fun h => Bool.noConfusion h
    terminal := fun _ => rfl
    live := iff_of_true rfl ⟨hkind, rfl⟩
    sinkless := hc.sinkless
    waiting := fun h => by simp [show c.hostInput = .waiting from h] at hidle
    returned := hc.returned
    pulling := fun h => absurd hidle h }

theorem Sound.begin (hc : Sound c) : Sound c.begin := by
  unfold Child.begin
  split
  · exact hc
  · rename_i hnew
    simp only [Bool.or_eq_true, not_or, Bool.not_eq_true] at hnew
    obtain ⟨hstarted, hfinished⟩ := hnew
    have hidle := hc.kept.idle hstarted
    have hflow := hc.kept.flow
    split
    · rename_i hkind
      have hended := ((hc.kept.unstarted hstarted (by simp [hkind])).2 hfinished).1
      exact (hc.kept.beginProgram hkind hstarted hended).sound_of_pulls (by simp [hkind, Kind.pulls])
    · rename_i hkind
      have hpulls : c.kind.pulls = true := by simp [hkind, Kind.pulls]
      refine Kept.sound_of_pulls ⟨?_, hc.kept.comes, ?_, ?_, hc.kept.terminal, ?_,
        hc.kept.sinkless, hc.kept.waiting, hc.kept.returned, ?_⟩ hpulls
      · simpa [hc.kept.terminal hkind] using hflow
      · exact fun h => Bool.noConfusion h
      · exact fun h => Bool.noConfusion h
      · simp [hc.kept.not_live hstarted, hkind]
      · exact fun h => absurd hidle h
    · rename_i hprogram hterminal
      obtain ⟨hpending, hunended⟩ := hc.kept.unstarted hstarted hterminal
      obtain ⟨hended, hopen⟩ := hunended hfinished
      rw [hstarted, hpending] at hflow
      rw [if_pos hopen]
      refine ⟨⟨?_, ?_, ?_, ?_, hc.kept.terminal, ?_, hc.kept.sinkless, hc.kept.waiting, ?_, ?_⟩, ?_⟩
      · simpa [Child.note, hpending] using hflow.launch
      · exact fun h => Bool.noConfusion (hended.symm.trans h)
      · exact fun h => Bool.noConfusion h
      · exact fun h => Bool.noConfusion h
      · exact iff_of_false (by simp [Child.note, hc.kept.not_live hstarted]) fun h => hprogram h.1
      · simpa [Child.note] using hc.kept.returned
      · exact fun h => absurd hidle h
      · exact fun h => absurd hpending h

/-! ## The end of the input -/

/-- The parent ends a child's input before the child began, and so begins it. -/
theorem Sound.closeUnstarted (hc : Sound c) (hended : c.ended = false)
    (hterminal : c.kind ≠ .hostTerminal) (hstarted : c.started = false) :
    Sound (
      let c' := Child.begin { c with
        ended := true, stdinOpen := false, history := c.history ++ [Event.close] }
      if c'.liveInput then (c'.push none).wakeInput else c') := by
  have hpending := (hc.kept.unstarted hstarted hterminal).1
  have heof := hc.kept.early hstarted
  have hidle := hc.kept.idle hstarted
  have hflow := hc.kept.flow
  rw [hended, hstarted, hpending] at hflow
  by_cases hfinished : c.finished = true
  · have hbegin : Child.begin { c with
        ended := true, stdinOpen := false, history := c.history ++ [Event.close] } =
        { c with ended := true, stdinOpen := false, history := c.history ++ [.close] } := by
      simp [Child.begin, hfinished]
    have hdead : ¬ c.liveInput = true := by simp [hc.kept.not_live hstarted]
    rw [hbegin]
    dsimp only
    rw [if_neg hdead]
    refine ⟨⟨?_, ?_, ?_, ?_, hc.kept.terminal, hc.kept.live, hc.kept.sinkless, hc.kept.waiting,
      ?_, hc.kept.pulling⟩, fun h => absurd hpending h⟩
    · simpa [hstarted, hpending] using hflow.closeEarly
    · exact fun _ h => Bool.noConfusion (hfinished.symm.trans h)
    · simpa using hc.kept.early
    · exact fun _ _ => ⟨hpending, fun h => Bool.noConfusion (hfinished.symm.trans h)⟩
    · simpa using hc.kept.returned
  · by_cases hkind : c.kind = .hostProgram
    · have hbegin : Child.begin { c with
          ended := true, stdinOpen := false, history := c.history ++ [Event.close] } =
          { c with
            started := true, liveInput := true, ended := true, stdinOpen := false
            pendingStdin := c.initialStdin.map some ++ c.pendingStdin, initialStdin := []
            history := c.history ++ [.close] } := by
        simp [Child.begin, hfinished, hstarted, hkind]
      rw [hbegin]
      have hprogram := hc.kept.beginProgram hkind hstarted hended
      have hopen : Kept { c with
          started := true, liveInput := true, stdinOpen := false
          pendingStdin := c.initialStdin.map some ++ c.pendingStdin, initialStdin := [] } :=
        ⟨hprogram.1, hprogram.2, hprogram.3, fun h => Bool.noConfusion h, hprogram.5,
          hprogram.6, hprogram.7, hprogram.8, hprogram.9, hprogram.10⟩
      have hflow' := hprogram.flow
      rw [show Child.ended _ = false from hended] at hflow'
      exact hopen.pushHost (by simp [hkind, Kind.pulls]) (.inr rfl) hflow'.close (by simp)
        fun _ => mem_append_right _ mem_cons_self
    · have hbegin : Child.begin { c with
          ended := true, stdinOpen := false, history := c.history ++ [Event.close] } =
          { c with
            started := true, ended := true, stdinOpen := false
            history := c.history ++ [.close] ++ [.take c.initialStdin.flatten, .eof] } := by
        unfold Child.begin
        cases hkind' : c.kind <;> simp_all [Child.note]
      have hdead : ¬ c.liveInput = true := by simp [hc.kept.not_live hstarted]
      rw [hbegin]
      dsimp only
      rw [if_neg hdead]
      refine ⟨⟨?_, ?_, ?_, ?_, hc.kept.terminal, ?_, hc.kept.sinkless, hc.kept.waiting, ?_, ?_⟩,
        fun h => absurd hpending h⟩
      · rw [if_pos rfl, hpending]
        exact hflow.closeEarly.launchEnded (by simpa using heof)
      · exact fun _ _ => .inr (by simp)
      · exact fun h => Bool.noConfusion h
      · exact fun h => Bool.noConfusion h
      · exact iff_of_false hdead fun h => hkind h.1
      · exact fun _ => .inr (by simp)
      · exact fun h => absurd hidle h

theorem endStdin_eq : c.endStdin =
    if c.kind = .hostTerminal ∨ c.liveInput = true then
      ({ c with ended := true, history := c.history ++ [Event.close] }.push none).wakeInput
    else if (!c.started) = true then
      let c' := Child.begin { c with
        ended := true, stdinOpen := false, history := c.history ++ [Event.close] }
      if c'.liveInput then (c'.push none).wakeInput else c'
    else
      match c.stdinSink with
      | some sink =>
        ({ c with ended := true, history := c.history ++ [Event.close] }.push none).flushStdin.watch sink
      | none =>
        ({ c with ended := true, history := c.history ++ [Event.close] }.push none).flushStdin :=
  rfl

theorem Sound.close (hc : Sound c) (hended : c.ended = false) : Sound c.endStdin := by
  have hflow := hc.kept.flow
  rw [hended] at hflow
  rw [endStdin_eq]
  by_cases hplace : c.kind = .hostTerminal ∨ c.liveInput = true
  · rw [if_pos hplace]
    have hpulls : c.kind.pulls = true := by
      rcases hplace with hkind | hlive
      · simp [hkind, Kind.pulls]
      · simp [(hc.kept.live.1 hlive).1, Kind.pulls]
    exact hc.kept.pushHost hpulls hplace hflow.close (by simp)
      fun _ => mem_append_right _ mem_cons_self
  · rw [if_neg hplace]
    by_cases hstarted : c.started = true
    · rw [if_neg (by simp [hstarted])]
      have hflushed := (hc.kept.pushSink hstarted hplace hflow.close
        fun _ => mem_append_right _ mem_cons_self).flush
      split
      · exact hflushed.watch
      · exact hflushed
    · rw [if_pos (by simpa using hstarted)]
      exact hc.closeUnstarted hended (fun h => hplace (.inl h)) (by simpa using hstarted)

/-! ## The child -/

theorem Sound.finish (hc : Sound c) : Sound c.finish := by
  refine ⟨Kept.wake fun h hwaiting hreturned hidle => ?_, fun _ _ h => ?_⟩
  · exact {
      flow := hc.kept.flow
      comes := fun _ h => Bool.noConfusion h
      early := hc.kept.early
      unstarted := fun hstarted hterminal =>
        ⟨(hc.kept.unstarted hstarted hterminal).1, fun h => Bool.noConfusion h⟩
      terminal := hc.kept.terminal
      live := hc.kept.live
      sinkless := hc.kept.sinkless
      waiting := fun h => absurd h hwaiting
      returned := fun _ => .inl rfl
      pulling := fun h => hc.kept.pulling (hidle h) }
  · have hfinished : c.finish.finished = true := by
      unfold Child.finish Child.wakeInput
      split <;> rfl
    exact Bool.noConfusion (hfinished.symm.trans h)

theorem Sound.attach {sink : Option RunStdin} (hc : Sound c) (hpulls : c.kind.pulls = false) :
    Sound (c.setStdin sink) := by
  have hkept : ∀ sink, Kept { c with stdinSink := sink } := fun sink =>
    ⟨hc.kept.1, hc.kept.2, hc.kept.3, hc.kept.4, hc.kept.5, hc.kept.6,
      fun h => Bool.noConfusion (hpulls.symm.trans h), hc.kept.8, hc.kept.9, hc.kept.10⟩
  cases sink with
  | none => exact ⟨hkept none, fun _ h => absurd rfl h⟩
  | some sink => exact (hkept (some sink)).flush.watch

theorem Sound.acknowledge {sinks : List ℕ} (hc : Sound c) : Sound (c.acknowledged sinks) := by
  have hkept : Kept { c with flushingInput := none } :=
    ⟨hc.kept.1, hc.kept.2, hc.kept.3, hc.kept.4, hc.kept.5, hc.kept.6, hc.kept.7, hc.kept.8,
      hc.kept.9, hc.kept.10⟩
  have hflushed := hkept.flush
  refine ⟨⟨hflushed.kept.1, hflushed.kept.2, hflushed.kept.3, hflushed.kept.4, hflushed.kept.5,
    hflushed.kept.6, hflushed.kept.7, hflushed.kept.8, hflushed.kept.9, hflushed.kept.10⟩, ?_⟩
  intro hpending hsink hfinished
  refine (hflushed.flushed hpending hsink hfinished).imp_left fun hflushing hnone => ?_
  exact hflushing (map_eq_none_iff.1 hnone)

theorem Sound.reject {sinks : List ℕ} (hc : Sound c) : Sound (c.rejected sinks) :=
  ⟨⟨hc.kept.1, hc.kept.2, hc.kept.3, hc.kept.4, hc.kept.5, hc.kept.6, hc.kept.7, hc.kept.8,
    hc.kept.9, hc.kept.10⟩, fun _ _ _ => .inr rfl⟩

theorem Sound.catches {sink : ℕ} {failures : List ℕ} (hc : Sound c) :
    Sound (c.caught sink failures) := by
  have hsound : Sound { c with failures := failures } :=
    ⟨⟨hc.kept.1, hc.kept.2, hc.kept.3, hc.kept.4, hc.kept.5, hc.kept.6, hc.kept.7, hc.kept.8,
      hc.kept.9, hc.kept.10⟩, hc.flushed⟩
  unfold Child.caught
  dsimp only
  split
  · exact hsound.finish
  · exact hsound

theorem Sound.pull (hc : Sound c) (hpulls : c.kind.pulls = true) (hstarted : c.started = true) :
    Sound c.pull := by
  have hflow := hc.kept.flow
  rw [if_pos hstarted] at hflow
  have hunstarted : ¬ c.started = false := by simp [hstarted]
  unfold Child.pull
  split
  · rename_i hfinished
    exact Kept.sound_of_pulls ⟨hc.kept.1, hc.kept.2, hc.kept.3, hc.kept.4, hc.kept.5, hc.kept.6,
      hc.kept.7, fun h => HostInput.noConfusion h, fun _ => .inl hfinished,
      fun _ => ⟨hpulls, hstarted⟩⟩ hpulls
  · rename_i hrunning
    split
    · rename_i hpending
      exact Kept.sound_of_pulls ⟨hc.kept.1, hc.kept.2, hc.kept.3, hc.kept.4, hc.kept.5,
        hc.kept.6, hc.kept.7, fun _ => hpending, fun h => HostInput.noConfusion h,
        fun _ => ⟨hpulls, hstarted⟩⟩ hpulls
    · rename_i bytes pending hpending
      rw [hpending] at hflow
      refine Kept.sound_of_pulls ⟨?_, ?_, ?_, ?_, hc.kept.terminal, hc.kept.live,
        hc.kept.sinkless, ?_, ?_, ?_⟩ hpulls
      · simpa [Child.note, hstarted] using hflow.give
      · intro hended hfinished
        rcases hc.kept.comes hended hfinished with h | h
        · exact .inl (by simpa [Child.note, hpending] using h)
        · exact .inr (mem_append_left _ h)
      · exact fun h => absurd h hunstarted
      · exact fun h => absurd h hunstarted
      · exact fun h => HostInput.noConfusion h
      · exact fun h => HostInput.noConfusion h
      · exact fun _ => ⟨hpulls, hstarted⟩
    · rename_i pending hpending
      rw [hpending] at hflow
      have heof : Event.eof ∈ c.history ++ [given (none : Option (List β))] := by
        simp [given]
      refine Kept.sound_of_pulls ⟨?_, ?_, ?_, ?_, hc.kept.terminal, hc.kept.live,
        hc.kept.sinkless, ?_, ?_, ?_⟩ hpulls
      · simpa [Child.note, hstarted] using hflow.give
      · exact fun _ _ => .inr heof
      · exact fun h => absurd h hunstarted
      · exact fun h => absurd h hunstarted
      · exact fun h => HostInput.noConfusion h
      · exact fun _ => .inr heof
      · exact fun _ => ⟨hpulls, hstarted⟩

/-! ## Runs -/

theorem Sound.new (kind : Kind) : Sound (Child.new kind : Child β) := by
  have hnew : Sound (⟨kind, false, false, false, true, false, [], [], none, none, [], .idle, false,
      []⟩ : Child β) := by
    refine ⟨⟨.new, ?_, ?_, ?_, fun _ => rfl, by simp, fun _ => rfl, fun _ => rfl, ?_, ?_⟩,
      fun h => absurd rfl h⟩
    · exact fun h => Bool.noConfusion h
    · exact fun _ => not_mem_nil
    · exact fun _ _ => ⟨rfl, fun _ => ⟨rfl, rfl⟩⟩
    · exact fun h => HostInput.noConfusion h
    · exact fun h => absurd rfl h
  unfold Child.new
  dsimp only
  split
  · exact hnew.begin
  · exact hnew

theorem Sound.step {c' : Child β} {a : Action β} (hc : Sound c)
    (h : ChildInput.step c a = some c') : Sound c' := by
  cases a with
  | write bytes =>
    simp only [ChildInput.step] at h
    split at h <;> cases h
    exact hc.write (by simpa using ‹¬ c.ended = true›)
  | close =>
    simp only [ChildInput.step] at h
    split at h <;> cases h
    exact hc.close (by simpa using ‹¬ c.ended = true›)
  | begins =>
    cases h
    exact hc.begin
  | attach sink =>
    simp only [ChildInput.step] at h
    split at h <;> cases h
    exact hc.attach (by simpa using ‹¬ c.kind.pulls = true›)
  | acknowledge =>
    obtain ⟨sinks, -, rfl⟩ := map_eq_some_iff.1 h
    exact hc.acknowledge
  | reject =>
    obtain ⟨sinks, -, rfl⟩ := map_eq_some_iff.1 h
    exact hc.reject
  | catches =>
    simp only [ChildInput.step] at h
    split at h <;> cases h
    exact hc.catches
  | pull =>
    simp only [ChildInput.step] at h
    split at h <;> cases h
    rename_i hpull
    simp only [Bool.and_eq_true] at hpull
    exact hc.pull hpull.1.1 hpull.1.2
  | resume =>
    simp only [ChildInput.step] at h
    split at h <;> cases h
    rename_i hwoken
    obtain ⟨hpulls, hstarted⟩ := hc.kept.pulling (by simp [hwoken])
    exact hc.pull hpulls hstarted
  | finish =>
    cases h
    exact hc.finish

theorem sound_of_run {kind : Kind} {as : List (Action β)}
    (h : Machine.run ChildInput.step (Child.new kind) as = some c) : Sound c :=
  Machine.invariant (fun _ _ _ hc hstep => hc.step hstep) (.new kind) h

end ChildInput

end Tabnode
