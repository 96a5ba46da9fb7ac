import Tabnode.ChildInput.Given

/-!
# A child that reads is given everything

After the parent's end, a child that reads, by acknowledging what its sink was given or by
pulling its input, is given what waits and then the end, in no more steps than chunks wait.
With what every step keeps, the child's standard input is what its parent wrote
(`child_input_of_run`).

A sink may reject a chunk, as one whose reader is gone does. The flush that waited for it
ends there, and what waits behind it stays until something begins another.
-/

namespace Tabnode

namespace ChildInput

open List

variable {β : Type*}

def Action.reads : Action β → Bool
  | .acknowledge => true
  | .pull => true
  | .resume => true
  | _ => false

def Given (c : Child β) : Prop :=
  .eof ∈ c.history ∧ Fifo.taken c.history = Fifo.written c.history

/-- The child is given all by its own reading, in at most `n` steps. -/
def Readable (c : Child β) (n : ℕ) : Prop :=
  ∃ as t, as.length ≤ n ∧ (∀ a ∈ as, Action.reads a = true) ∧
    Machine.run step c as = some t ∧ Given t

variable {c c' : Child β} {sink : RunStdin} {sinks : List ℕ} {n : ℕ}

theorem Sound.given_of_eof (hc : Sound c) (heof : .eof ∈ c.history) : Given c := by
  refine ⟨heof, ?_⟩
  have hempty := hc.kept.flow.accepts.ended heof
  rw [hc.kept.flow.accepts.written_eq, hempty, append_nil]

theorem Sound.given_of_nil (hc : Sound c) (hended : c.ended = true) (hfinished : c.finished = false)
    (hpending : c.pendingStdin = []) : Given c := by
  rcases hc.kept.comes hended hfinished with h | h
  · rw [hpending] at h
    exact absurd h not_mem_nil
  · exact hc.given_of_eof h

theorem Given.readable (h : Given c) : Readable c n :=
  ⟨[], c, Nat.zero_le n, fun _ ha => absurd ha not_mem_nil, rfl, h⟩

theorem Readable.cons {a : Action β} (hreads : a.reads = true) (hstep : step c a = some c')
    (h : Readable c' n) : Readable c (n + 1) := by
  obtain ⟨as, t, hlength, hall, hrun, hgiven⟩ := h
  refine ⟨a :: as, t, Nat.succ_le_succ hlength, ?_, ?_, hgiven⟩
  · intro b hb
    rcases mem_cons.1 hb with rfl | hb
    · exact hreads
    · exact hall b hb
  · rw [Machine.run_cons, hstep]
    exact hrun

theorem acknowledged_eq (hsink : c.stdinSink = some sink) (hfinished : c.finished = false)
    (hpending : c.pendingStdin ≠ []) :
    (c.acknowledged sinks).stdinSink = some sink ∧ (c.acknowledged sinks).finished = false ∧
      (c.acknowledged sinks).ended = c.ended ∧ (c.acknowledged sinks).refused = false ∧
      (c.acknowledged sinks).pendingStdin.length < c.pendingStdin.length := by
  have hidle : Child.flushingInput { c with flushingInput := none } = none := rfl
  obtain ⟨events, left, waits, hloop, heq⟩ := flushStdin_eq hidle hsink hfinished
  unfold Child.acknowledged
  rw [heq]
  refine ⟨hsink, hfinished, rfl, rfl, ?_⟩
  obtain ⟨chunk, pending, hcons⟩ := exists_cons_of_ne_nil hpending
  rw [show Child.pendingStdin { c with flushingInput := none } = chunk :: pending from hcons] at hloop
  dsimp only
  rw [hcons]
  cases hasync : sink.writeAsync with
  | true =>
    rw [hasync] at hloop
    cases hloop
    exact Nat.lt_succ_self _
  | false =>
    rw [hasync, flushLoop_push] at hloop
    cases hloop
    exact Nat.succ_pos _

/-- A child whose sink acknowledges what it is given is given all. -/
theorem Sound.readable_of_sink (hc : Sound c) (hended : c.ended = true)
    (hfinished : c.finished = false) (hsink : c.stdinSink = some sink)
    (hrefused : c.refused = false) (hn : c.pendingStdin.length ≤ n) : Readable c n := by
  induction n generalizing c with
  | zero =>
    have hpending : c.pendingStdin = [] := length_eq_zero_iff.1 (Nat.le_zero.1 hn)
    exact (hc.given_of_nil hended hfinished hpending).readable
  | succ n ih =>
    by_cases hpending : c.pendingStdin = []
    · exact (hc.given_of_nil hended hfinished hpending).readable
    · rcases hc.flushed hpending (by simp [hsink]) hfinished with hflushing | hr
      · obtain ⟨sinks, hsinks⟩ := Option.ne_none_iff_exists'.1 hflushing
        have hstep : ChildInput.step c .acknowledge = some (c.acknowledged sinks) := by
          rw [ChildInput.step, hsinks]
          rfl
        obtain ⟨hsink', hfinished', hended', hrefused', hless⟩ :=
          acknowledged_eq hsink hfinished hpending
        exact .cons rfl hstep (ih hc.acknowledge (hended'.trans hended) hfinished' hsink' hrefused'
          (by omega))
      · exact Bool.noConfusion (hrefused.symm.trans hr)

theorem pull_eq {chunk : Option (List β)} {pending : List (Option (List β))}
    (hfinished : c.finished = false) (hpending : c.pendingStdin = chunk :: pending) :
    c.pull.pendingStdin = pending ∧ c.pull.finished = false ∧ c.pull.ended = c.ended ∧
      c.pull.kind = c.kind ∧ c.pull.started = c.started ∧ c.pull.hostInput ≠ .waiting := by
  unfold Child.pull
  rw [if_neg (by simp [hfinished]), hpending]
  cases chunk with
  | none | some _ => exact ⟨rfl, hfinished, rfl, rfl, rfl, by simp [Child.note]⟩

theorem Sound.readable_of_pulls (hc : Sound c) (hended : c.ended = true)
    (hfinished : c.finished = false) (hpulls : c.kind.pulls = true) (hstarted : c.started = true)
    (hn : c.pendingStdin.length ≤ n) : Readable c n := by
  induction n generalizing c with
  | zero =>
    have hpending : c.pendingStdin = [] := length_eq_zero_iff.1 (Nat.le_zero.1 hn)
    exact (hc.given_of_nil hended hfinished hpending).readable
  | succ n ih =>
    by_cases hpending : c.pendingStdin = []
    · exact (hc.given_of_nil hended hfinished hpending).readable
    · obtain ⟨chunk, pending, hcons⟩ := exists_cons_of_ne_nil hpending
      obtain ⟨hleft, hfinished', hended', hkind, hstarted', -⟩ := pull_eq hfinished hcons
      have hrest : Readable c.pull n := by
        refine ih (hc.pull hpulls hstarted) (hended'.trans hended) hfinished' (hkind ▸ hpulls)
          (hstarted' ▸ hstarted) ?_
        rw [hcons, length_cons] at hn
        rw [hleft]
        omega
      cases hhost : c.hostInput with
      | idle =>
        refine .cons (a := .pull) rfl ?_ hrest
        simp [ChildInput.step, hpulls, hstarted, hhost]
      | woken =>
        refine .cons (a := .resume) rfl ?_ hrest
        simp [ChildInput.step, hhost]
      | waiting => exact absurd (hc.kept.waiting hhost) hpending
      | returned =>
        rcases hc.kept.returned hhost with h | h
        · exact Bool.noConfusion (hfinished.symm.trans h)
        · exact (hc.given_of_eof h).readable

/-! ## The standard input of a child -/

/-- A child's standard input is what its parent wrote: what it was given is the beginning
of what was written, and the end is given once, after all of it; no chunk waits at a sink
without a flush, unless the sink rejected one and nothing was begun since, nor at a
`hostInput` that waits; and after the parent's end a child that reads is given all, in no
more steps than chunks wait. -/
structure Fed (c : Child β) : Prop where
  lossless : Fifo.Lossless c.history
  once : c.history.countP isEof ≤ 1
  flushed : c.pendingStdin ≠ [] → c.stdinSink ≠ none → c.finished = false →
    c.flushingInput ≠ none ∨ c.refused = true
  woken : c.hostInput = .waiting → c.pendingStdin = []
  reading : c.ended = true → c.finished = false → c.started = true →
    (c.kind.pulls = true ∨ c.stdinSink ≠ none ∧ c.refused = false) →
      Readable c c.pendingStdin.length

theorem child_input_of_run {kind : Kind} {as : List (Action β)}
    (h : Machine.run step (Child.new kind) as = some c) : Fed c := by
  have hc := sound_of_run h
  refine ⟨hc.kept.flow.accepts.lossless, hc.kept.flow.once, hc.flushed, hc.kept.waiting, ?_⟩
  rintro hended hfinished hstarted (hpulls | ⟨hsink, hrefused⟩)
  · exact hc.readable_of_pulls hended hfinished hpulls hstarted (Nat.le_refl _)
  · obtain ⟨sink, hsink⟩ := Option.ne_none_iff_exists'.1 hsink
    exact hc.readable_of_sink hended hfinished hsink hrefused (Nat.le_refl _)

/-- A `node` that begins in the middle of the writes and attaches its sink after them. -/
theorem child_input_of_directNode :
    ∃ c : Child ℕ, Machine.run step (Child.new .directNode)
      [.write [1], .begins, .write [2], .attach (some ⟨0, false⟩), .write [3], .close] = some c ∧
      c.history = [.write [1], .take [1], .write [2], .take [2], .write [3], .take [3], .close,
        .eof] ∧ Fed c := by
  have hrun : Machine.run step (Child.new .directNode : Child ℕ)
      [.write [1], .begins, .write [2], .attach (some ⟨0, false⟩), .write [3], .close] =
      some _ := rfl
  exact ⟨_, rfl, rfl, child_input_of_run hrun⟩

/-- A sink that rejects a chunk leaves the next one waiting, with no flush. -/
theorem waits_of_reject :
    ∃ c : Child ℕ, Machine.run step (Child.new .admittedNode)
      [.attach (some ⟨0, true⟩), .write [1], .write [2], .reject] = some c ∧
      c.pendingStdin = [some [2]] ∧ c.stdinSink = some ⟨0, true⟩ ∧ c.finished = false ∧
      c.flushingInput = none :=
  ⟨_, rfl, rfl, rfl, rfl, rfl⟩

end ChildInput

end Tabnode
