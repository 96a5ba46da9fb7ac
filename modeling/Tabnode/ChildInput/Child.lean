import Mathlib.Data.List.Basic
import Tabnode.Data.Fifo
import Tabnode.Data.Machine

/-!
# The standard input of a child

What a parent writes to a child's pipe waits in `initialStdin` until the child begins, and
in `pendingStdin` afterwards. A Node child is given the first with its launch and the
second through the sink it attaches, which takes each chunk at once or acknowledges it; a
program its host runs, and one at a host's terminal, pull `hostInput`, which takes from
`pendingStdin` and waits with a wake that is called once.

The bytes are of any type; a chunk that is `none` is the end. The history is what the
parent wrote and what the child was given, in the terms of a queue. A parent reads its
pipe until its end: it writes nothing after it, and ends once.
-/

namespace Tabnode

namespace ChildInput

/-- How a child is run: a `node` in a realm of its own, a `node` in this one, a program at
a host's terminal, a program that its host runs. -/
inductive Kind where
  | admittedNode
  | directNode
  | hostTerminal
  | hostProgram
  deriving DecidableEq

/-- Whether the child pulls `hostInput`. -/
def Kind.pulls : Kind → Bool
  | .hostTerminal => true
  | .hostProgram => true
  | _ => false

/-- A sink that a child attached, and whether it has `writeAsync`. -/
structure RunStdin where
  id : ℕ
  writeAsync : Bool
  deriving DecidableEq

/-- Where `hostInput` stands: no `next` of the host waits; one waits for a wake, or was
woken; it has returned. -/
inductive HostInput where
  | idle
  | waiting
  | woken
  | returned
  deriving DecidableEq

/-- A child's standard input. `flushingInput` is the flush that waits for a `writeAsync`,
with the sinks whose end of the child waits on its failure, and `failures` are those of
flushes that have failed. Beside them, whether a `writeAsync` failed and no flush was
begun since. -/
structure Child (β : Type*) where
  kind : Kind
  started : Bool
  finished : Bool
  ended : Bool
  stdinOpen : Bool
  liveInput : Bool
  initialStdin : List (List β)
  pendingStdin : List (Option (List β))
  stdinSink : Option RunStdin
  flushingInput : Option (List ℕ)
  failures : List ℕ
  hostInput : HostInput
  refused : Bool
  history : List (Fifo.Event β)
  deriving DecidableEq

def given {β : Type*} : Option (List β) → Fifo.Event β
  | some bytes => .take bytes
  | none => .eof

namespace Child

variable {β : Type*} (c : Child β)

def note (events : List (Fifo.Event β)) : Child β := { c with history := c.history ++ events }

/-- `wakeInput`, called at most once. -/
def wakeInput : Child β :=
  match c.hostInput with
  | .waiting => { c with hostInput := .woken }
  | _ => c

/-- The loop of `flushStdin`: what it gives, what is left, and whether it waits. -/
def flushLoop (writeAsync : Bool) :
    List (Option (List β)) → List (Fifo.Event β) × List (Option (List β)) × Bool
  | [] => ([], [], false)
  | chunk :: pending =>
    if writeAsync then ([given chunk], pending, true)
    else
      let (events, left, waits) := flushLoop writeAsync pending
      (given chunk :: events, left, waits)

def flushStdin : Child β :=
  match c.flushingInput, c.stdinSink with
  | some _, _ => c
  | none, none => c
  | none, some sink =>
    if c.finished then c
    else
      let (events, left, waits) := flushLoop sink.writeAsync c.pendingStdin
      { c with
        pendingStdin := left
        flushingInput := if waits then some [] else none
        refused := false
        history := c.history ++ events }

/-- A flush that waits ends the child when it fails, if the sink is still its own. -/
def watch (sink : RunStdin) : Child β :=
  { c with flushingInput := c.flushingInput.map fun sinks => sinks ++ [sink.id] }

/-- `streams.stdin = sink`. -/
def setStdin : Option RunStdin → Child β
  | none => { c with stdinSink := none }
  | some sink => ({ c with stdinSink := some sink }.flushStdin).watch sink

def finish : Child β := { c with finished := true }.wakeInput

/-- `begin`: a Node child is given what was written, and its end where that came before. -/
def begin : Child β :=
  if c.started || c.finished then c
  else
    match c.kind with
    | .hostProgram =>
      { c with
        started := true
        liveInput := true
        pendingStdin := c.initialStdin.map some ++ c.pendingStdin
        initialStdin := [] }
    | .hostTerminal => { c with started := true }
    | _ =>
      { c with started := true }.note
        (.take c.initialStdin.flatten :: if c.stdinOpen then [] else [.eof])

def push (chunk : Option (List β)) : Child β :=
  { c with pendingStdin := c.pendingStdin ++ [chunk] }

def writeStdin (bytes : List β) : Child β :=
  let c := c.note [.write bytes]
  if c.kind = .hostTerminal ∨ c.liveInput then (c.push (some bytes)).wakeInput
  else if !c.started then { c with initialStdin := c.initialStdin ++ [bytes] }
  else (c.push (some bytes)).flushStdin

def endStdin : Child β :=
  let c := { c with ended := true }.note [.close]
  if c.kind = .hostTerminal ∨ c.liveInput then (c.push none).wakeInput
  else if !c.started then
    let c := { c with stdinOpen := false }.begin
    if c.liveInput then (c.push none).wakeInput else c
  else
    let flushed := (c.push none).flushStdin
    match c.stdinSink with
    | some sink => flushed.watch sink
    | none => flushed

/-- The `writeAsync` that a flush waits for is acknowledged, and the flush goes on. -/
def acknowledged (sinks : List ℕ) : Child β :=
  let c := { c with flushingInput := none }.flushStdin
  { c with flushingInput := c.flushingInput.map fun _ => sinks }

/-- The `writeAsync` that a flush waits for is rejected. -/
def rejected (sinks : List ℕ) : Child β :=
  { c with flushingInput := none, failures := c.failures ++ sinks, refused := true }

def caught (sink : ℕ) (failures : List ℕ) : Child β :=
  let c := { c with failures := failures }
  if c.stdinSink.any (·.id = sink) then c.finish else c

/-- `hostInput` runs until it yields, waits or returns. -/
def pull : Child β :=
  if c.finished then { c with hostInput := .returned }
  else
    match c.pendingStdin with
    | [] => { c with hostInput := .waiting }
    | some bytes :: pending =>
      { c with hostInput := .idle, pendingStdin := pending }.note [given (some bytes)]
    | none :: pending => { c with hostInput := .returned, pendingStdin := pending }.note [given none]

end Child

variable {β : Type*}

def Child.new (kind : Kind) : Child β :=
  let c : Child β :=
    ⟨kind, false, false, false, true, false, [], [], none, none, [], .idle, false, []⟩
  if kind = .admittedNode then c.begin else c

/-- What can happen: the parent writes or ends; the child's turn comes, it attaches,
replaces or detaches its sink, acknowledges a chunk or rejects it, or pulls its input; a
failure is caught; the child ends. -/
inductive Action (β : Type*) where
  | write (bytes : List β)
  | close
  | begins
  | attach (sink : Option RunStdin)
  | acknowledge
  | reject
  | catches
  | pull
  | resume
  | finish

def step (c : Child β) : Action β → Option (Child β)
  | .write bytes => if c.ended then none else some (c.writeStdin bytes)
  | .close => if c.ended then none else some c.endStdin
  | .begins => some c.begin
  | .attach sink => if c.kind.pulls then none else some (c.setStdin sink)
  | .acknowledge => c.flushingInput.map c.acknowledged
  | .reject => c.flushingInput.map c.rejected
  | .catches =>
    match c.failures with
    | [] => none
    | sink :: failures => some (c.caught sink failures)
  | .pull => if c.kind.pulls && c.started && c.hostInput = .idle then some c.pull else none
  | .resume => if c.hostInput = .woken then some c.pull else none
  | .finish => some c.finish

end ChildInput

end Tabnode

/-!
## What waits and what was given

`Flow early pending history ended` says of the bytes that wait to be given with the launch,
of the chunks that wait after them and of the history that they are one queue, and that the
end waits last or was given, once. Each of the moves of a chunk keeps it.
-/

namespace Tabnode

namespace ChildInput

variable {β : Type*}

def isEof : Fifo.Event β → Bool
  | .eof => true
  | _ => false

/-- What waits and the history are one queue. -/
structure Flow (early : List β) (pending : List (Option (List β)))
    (history : List (Fifo.Event β)) (ended : Bool) : Prop where
  accepts : Fifo.Accepts history ⟨early ++ (pending.filterMap id).flatten, ended⟩
  once : history.countP isEof ≤ 1
  closing : none ∈ pending → ended = true ∧ .eof ∉ history
  last : ∃ chunks : List (List β), pending = chunks.map some ∨ pending = chunks.map some ++ [none]
  given : .eof ∈ history → pending = [] ∧ ended = true

variable {early bytes : List β} {pending : List (Option (List β))} {chunk : Option (List β)}
  {history : List (Fifo.Event β)} {ended : Bool}

theorem countP_isEof_eq_zero (h : .eof ∉ history) : history.countP isEof = 0 :=
  List.countP_eq_zero.2 fun e he => by
    cases e with
    | eof => exact absurd he h
    | _ => simp [isEof]

theorem Flow.new : Flow ([] : List β) [] [] false where
  accepts := .nil
  once := Nat.zero_le _
  closing h := absurd h List.not_mem_nil
  last := ⟨[], .inl rfl⟩
  given h := absurd h List.not_mem_nil

/-- What waits stays in the order it was written, with nothing behind the end. -/
theorem Flow.tail_last {chunks : List (List β)}
    (h : chunk :: pending = chunks.map some ∨ chunk :: pending = chunks.map some ++ [none]) :
    (∃ bytes, chunk = some bytes) ∧
      (∃ chunks : List (List β),
        pending = chunks.map some ∨ pending = chunks.map some ++ [none]) ∨
      chunk = none ∧ pending = [] := by
  cases chunks with
  | nil =>
    rcases h with h | h
    · cases h
    · cases h
      exact .inr ⟨rfl, rfl⟩
  | cons first chunks =>
    refine .inl ?_
    rcases h with h | h
    · cases h
      exact ⟨⟨first, rfl⟩, chunks, .inl rfl⟩
    · cases h
      exact ⟨⟨first, rfl⟩, chunks, .inr rfl⟩

theorem Flow.give (h : Flow [] (chunk :: pending) history ended) :
    Flow [] pending (history ++ [ChildInput.given chunk]) ended := by
  have heof : .eof ∉ history := fun he => absurd (h.given he).1 (List.cons_ne_nil _ _)
  obtain ⟨chunks, hchunks⟩ := h.last
  rcases Flow.tail_last hchunks with ⟨⟨bytes, rfl⟩, hlast⟩ | ⟨rfl, rfl⟩
  · exact {
      accepts := .take (by simpa using h.accepts)
      once := by
        rw [List.countP_append, countP_isEof_eq_zero heof]
        exact Nat.zero_le _
      closing := fun hmem => ⟨(h.closing (List.mem_cons_of_mem _ hmem)).1, by
        simpa [ChildInput.given] using heof⟩
      last := hlast
      given := fun he => absurd he (by simpa [ChildInput.given] using heof) }
  · have hended := (h.closing List.mem_cons_self).1
    subst hended
    exact {
      accepts := .eof (by simpa using h.accepts)
      once := by
        rw [List.countP_append, countP_isEof_eq_zero heof]
        exact Nat.le_refl 1
      closing := fun hmem => absurd hmem List.not_mem_nil
      last := ⟨[], .inl rfl⟩
      given := fun _ => ⟨rfl, rfl⟩ }

theorem Flow.giveAll (h : Flow [] pending history ended) :
    Flow [] [] (history ++ pending.map ChildInput.given) ended := by
  induction pending generalizing history with
  | nil => simpa using h
  | cons chunk pending ih =>
    have hrest := ih h.give
    rwa [List.append_assoc, List.singleton_append, ← List.map_cons] at hrest

theorem Flow.write (h : Flow early pending history false) :
    Flow early (pending ++ [some bytes]) (history ++ [.write bytes]) false where
  accepts := by simpa using h.accepts.write bytes
  once := by simpa [List.countP_append, isEof] using h.once
  closing hmem := by
    have hnone : none ∈ pending := by simpa using hmem
    exact absurd (h.closing hnone).1 Bool.false_ne_true
  last := by
    obtain ⟨chunks, rfl | hchunks⟩ := h.last
    · exact ⟨chunks ++ [bytes], .inl (by simp)⟩
    · have hnone : none ∈ pending := hchunks ▸ List.mem_append_right _ List.mem_cons_self
      exact absurd (h.closing hnone).1 Bool.false_ne_true
  given he := absurd (h.given (by simpa using he)).2 Bool.false_ne_true

theorem Flow.writeEarly (h : Flow early [] history false) :
    Flow (early ++ bytes) [] (history ++ [.write bytes]) false where
  accepts := by simpa using h.accepts.write bytes
  once := by simpa [List.countP_append, isEof] using h.once
  closing hmem := absurd hmem List.not_mem_nil
  last := ⟨[], .inl rfl⟩
  given he := absurd (h.given (by simpa using he)).2 Bool.false_ne_true

theorem Flow.close (h : Flow early pending history false) :
    Flow early (pending ++ [none]) (history ++ [.close]) true where
  accepts := by simpa using h.accepts.close
  once := by simpa [List.countP_append, isEof] using h.once
  closing _ := ⟨rfl, fun he => absurd (h.given (by simpa using he)).2 Bool.false_ne_true⟩
  last := by
    obtain ⟨chunks, rfl | hchunks⟩ := h.last
    · exact ⟨chunks, .inr rfl⟩
    · have hnone : none ∈ pending := hchunks ▸ List.mem_append_right _ List.mem_cons_self
      exact absurd (h.closing hnone).1 Bool.false_ne_true
  given he := absurd (h.given (by simpa using he)).2 Bool.false_ne_true

theorem Flow.closeEarly (h : Flow early [] history false) :
    Flow early [] (history ++ [.close]) true where
  accepts := by simpa using h.accepts.close
  once := by simpa [List.countP_append, isEof] using h.once
  closing hmem := absurd hmem List.not_mem_nil
  last := ⟨[], .inl rfl⟩
  given _ := ⟨rfl, rfl⟩

theorem Flow.launch (h : Flow early [] history ended) :
    Flow [] [] (history ++ [.take early]) ended where
  accepts := .take (by simpa using h.accepts)
  once := by simpa [List.countP_append, isEof] using h.once
  closing hmem := absurd hmem List.not_mem_nil
  last := ⟨[], .inl rfl⟩
  given he := h.given (by simpa using he)

/-- A child whose input ended before it began is launched with all of it. -/
theorem Flow.launchEnded (h : Flow early [] history true) (heof : .eof ∉ history) :
    Flow [] [] (history ++ [.take early, .eof]) true where
  accepts := by simpa using (h.launch.accepts).eof
  once := by
    rw [List.countP_append, countP_isEof_eq_zero heof]
    exact Nat.le_refl 1
  closing hmem := absurd hmem List.not_mem_nil
  last := ⟨[], .inl rfl⟩
  given _ := ⟨rfl, rfl⟩

/-- A program that its host runs pulls what was written before it began. -/
theorem Flow.unshift {initial : List (List β)} (h : Flow initial.flatten [] history ended)
    (heof : .eof ∉ history) : Flow [] (initial.map some) history ended where
  accepts := by simpa [List.filterMap_map] using h.accepts
  once := h.once
  closing hmem := by simp at hmem
  last := ⟨initial, .inl rfl⟩
  given he := absurd he heof

end ChildInput

end Tabnode
