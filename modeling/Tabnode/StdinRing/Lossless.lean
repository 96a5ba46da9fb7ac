import Tabnode.StdinRing.Threads

/-!
# The ring is a queue

What the ring and its threads hold of the stream is a list: the bytes a `take` has
copied and not yet answered, the contents of the ring, and what the promise queue still
has to put. Each step moves bytes along it, so that the ring refines a queue with an end
(`Phase`), as long as a `close` does not overtake writes that wait and a full ring is
waited for. `close` does not check either, and the run after this module's main result
shows an end answered before the bytes of an earlier write.
-/

namespace Tabnode

namespace StdinRing

open List

variable {cap : Capacity}

/-- The bytes of a `put` that are not in the ring. -/
def Put.pending : Put → List UInt8
  | .idle => []
  | .start bytes => bytes
  | .loadRead job => job.rest
  | .loadWrite job _ => job.rest
  | .wait job _ => job.rest
  | .parked job _ => job.rest
  | .woken job => job.rest
  | .copy job _ _ _ => job.rest
  | .add job count => job.rest.drop count
  | .notify job count => job.rest.drop count

def Writer.pending (writer : Writer) : List UInt8 :=
  writer.put.pending ++ writer.queue.flatten

/-- The bytes that a `take` has taken and not yet answered. -/
def Pc.taking : Pc → List UInt8
  | .notify into => into
  | _ => []

/-- A `close` made when every byte written before it is in the ring, and a `put` that
finds the ring full only where it can wait for the reader. -/
def Orderly (waitsAsync : Bool) (cap : Capacity) (w : World) : Action → Prop
  | .close => w.ring.closed = 1 ∨ w.writer.pending = []
  | .writer =>
    match w.writer.put with
    | .loadWrite _ readRaw => available w.ring.writeIndex readRaw = cap.size → waitsAsync = true
    | _ => True
  | _ => True

instance (waitsAsync : Bool) (cap : Capacity) (w : World) (a : Action) :
    Decidable (Orderly waitsAsync cap w a) := by
  unfold Orderly
  split
  · infer_instance
  · split <;> infer_instance
  · infer_instance

/-- The producer will put nothing more: its next `put`, if any, will find CLOSED set. -/
def Put.Dormant (put : Put) : Prop := put = .idle ∨ ∃ bytes, put = .start bytes

def Pc.SeesEnd (r : Ring) : Pc → Prop
  | .leftWrite _ => r.closed = 1
  | .leftRead _ write => r.closed = 1 ∧ write = r.writeIndex
  | _ => True

/-- The queue that the ring and its threads are, before, in and after a `close`. -/
inductive Phase (cap : Capacity) (w : World) : Prop where
  | writing (isOpen : w.ring.closed = 0) (close : w.writer.close = .idle)
      (accepted : Fifo.Accepts w.history
        ⟨w.reader.pc.taking ++ (w.ring.contents cap ++ w.writer.pending), false⟩)
  | closing (isOpen : w.ring.closed = 0) (close : w.writer.close = .store)
      (put : w.writer.put = .idle)
      (accepted : Fifo.Accepts w.history ⟨w.reader.pc.taking ++ w.ring.contents cap, true⟩)
  | closed (isClosed : w.ring.closed = 1) (put : w.writer.put.Dormant)
      (accepted : Fifo.Accepts w.history ⟨w.reader.pc.taking ++ w.ring.contents cap, true⟩)

/-- The ring is the queue its history says. -/
structure IsQueue (cap : Capacity) (w : World) : Prop where
  sound : Sound cap w
  phase : Phase cap w
  seesEnd : w.reader.pc.SeesEnd w.ring

@[simp] theorem Writer.pending_mk (queue : List (List UInt8)) (put : Put) (close : Close) :
    Writer.pending ⟨queue, put, close⟩ = put.pending ++ queue.flatten := rfl

theorem isQueue_new (index signal : Word) (data : ℕ → UInt8) :
    IsQueue cap (World.new index signal data) where
  sound := sound_new index signal data
  phase := .writing rfl rfl (by
    simpa [World.new, Pc.taking, Put.pending, Ring.contents, Ring.size] using Fifo.Accepts.nil)
  seesEnd := trivial

@[simp] theorem Reader.taking_notified (reader : Reader) :
    reader.notified.pc.taking = reader.pc.taking := by
  unfold Reader.notified
  cases hpc : reader.pc <;> simp [Pc.taking]

theorem Pc.SeesEnd.notified {r : Ring} {reader : Reader} (h : reader.pc.SeesEnd r) :
    reader.notified.pc.SeesEnd r := by
  unfold Reader.notified
  cases hpc : reader.pc with
  | parked length signal => trivial
  | _ => simpa [hpc] using h

@[simp] theorem Put.pending_loop (job : Job) : (Put.loop job).pending = job.rest := by
  unfold Put.loop
  split
  · rfl
  · simp [Put.pending, Job.rest]
    omega

theorem Put.Ok.pending_ne_nil {r : Ring} {put : Put} (h : put.Ok cap r)
    (hs : put.suspended = true) (hp : put.pending = []) : put = .idle := by
  cases put with
  | idle => rfl
  | parked job _ =>
    have := h.1
    simp [Put.pending, Job.rest] at hp
    omega
  | woken job =>
    simp only [Put.Ok] at h
    simp [Put.pending, Job.rest] at hp
    omega
  | _ => simp [Put.suspended] at hs

variable {waitsAsync : Bool} {w t : World}

/-- A `put` on an open ring moves bytes from what is pending to the contents. -/
theorem putStep_pending (hw : Sound cap w) (hopen : w.ring.closed = 0)
    (hok : Orderly waitsAsync cap w .writer) (h : putStep waitsAsync cap w = some t) :
    t.ring.contents cap ++ t.writer.pending = w.ring.contents cap ++ w.writer.pending := by
  have hput' := hw.put
  cases hput : w.writer.put with
  | idle =>
    simp only [putStep, hput] at h
    split at h
    · cases h
    · rename_i bytes queue hqueue
      cases h
      simp [Writer.pending, hput, hqueue, Put.pending]
  | start bytes =>
    simp only [putStep, hput, hopen] at h
    cases h
    simp only [Writer.pending, hput, Put.pending_loop]
    simp [Put.pending, Job.rest]
  | loadRead job =>
    simp only [putStep, hput] at h
    cases h
    simp [Writer.pending, hput, Put.pending]
  | loadWrite job readRaw =>
    simp only [putStep, hput] at h
    rw [hput] at hput'
    split at h
    · have hfull : available w.ring.writeIndex readRaw = cap.size := by
        have := hput'.2.2
        omega
      simp only [Orderly, hput] at hok
      rw [if_pos (hok hfull)] at h
      cases h
      simp [Writer.pending, hput, Put.pending]
    · cases h
      simp [Writer.pending, hput, Put.pending]
  | wait job readRaw =>
    simp only [putStep, hput] at h
    split at h
    · cases h
      simp [Writer.pending, hput, Put.pending]
    · cases h
      simp only [Writer.pending, hput, Put.pending_loop]
      rfl
  | parked job readRaw => simp [putStep, hput] at h
  | woken job =>
    simp only [putStep, hput] at h
    cases h
    simp only [Writer.pending, hput, Put.pending_loop]
    rfl
  | copy job written count done =>
    simp only [putStep, hput] at h
    rw [hput] at hput'
    obtain ⟨rfl, hpos, hcount, hroom, hdone, hcells⟩ := hput'
    split at h
    · rename_i hlt
      cases h
      have hplace : target cap.size w.ring.writeIndex.toNat count done =
          (w.ring.writeIndex.toNat + done) % cap.size := target_eq (by omega) hlt
      have hsame := Ring.contents_update cap (by omega : w.ring.size + done < cap.size)
        (job.bytes.getD (job.offset + done) 0)
      simp only [hplace, hsame]
      simp [Writer.pending, hput, Put.pending]
    · cases h
      obtain rfl : done = count := by omega
      rw [Put.Ok.chunk ⟨rfl, hpos, hcount, hroom, Nat.le_refl _, hcells⟩]
      simp only [Writer.pending, hput, Put.pending, append_assoc]
      rw [← append_assoc, ← append_assoc, append_assoc (w.ring.contents cap),
        take_append_drop, append_assoc]
  | add job count =>
    simp only [putStep, hput] at h
    cases h
    simp [Writer.pending, hput, Put.pending, Ring.contents, Ring.size, Ring.cell]
  | notify job count =>
    simp only [putStep, hput] at h
    cases h
    simp only [Writer.pending, hput, Put.pending_loop]
    simp [Put.pending, Job.rest]

/-- A `put` changes the words of neither party but the indices and SIGNAL. -/
theorem putStep_same (h : putStep waitsAsync cap w = some t) :
    t.history = w.history ∧ t.ring.closed = w.ring.closed ∧ t.writer.close = w.writer.close ∧
      t.reader.pc.taking = w.reader.pc.taking := by
  cases hput : w.writer.put <;> simp only [putStep, hput] at h <;> grind [Reader.taking_notified]

theorem putStep_dormant (hclosed : w.ring.closed = 1) (hput : w.writer.put.Dormant)
    (h : putStep waitsAsync cap w = some t) : t.writer.put.Dormant ∧ t.ring = w.ring := by
  rcases hput with hput | ⟨bytes, hput⟩ <;> simp only [putStep, hput, hclosed] at h
  · split at h
    · cases h
    · cases h
      exact ⟨.inr ⟨_, rfl⟩, rfl⟩
  · cases h
    exact ⟨.inl rfl, rfl⟩

theorem IsQueue.seesEnd_fed (hw : IsQueue cap w)
    (hclosed : w.ring.closed = 1 → t.ring.closed = 1 ∧ t.ring.writeIndex = w.ring.writeIndex)
    (hreader : t.reader = w.reader ∨ t.reader = w.reader.notified) :
    t.reader.pc.SeesEnd t.ring := by
  have hkept : w.reader.pc.SeesEnd t.ring := by
    have hs := hw.seesEnd
    cases hpc : w.reader.pc with
    | leftWrite frame =>
      rw [hpc] at hs
      exact (hclosed hs).1
    | leftRead frame write =>
      rw [hpc] at hs
      obtain ⟨hone, hwrite⟩ := hclosed hs.1
      exact ⟨hone, hs.2.trans hwrite.symm⟩
    | _ => trivial
  rcases hreader with heq | heq
  · exact heq ▸ hkept
  · exact heq ▸ hkept.notified

theorem IsQueue.writerStep (hw : IsQueue cap w) (hok : Orderly waitsAsync cap w .writer)
    (ht : Sound cap t) (h : writerStep waitsAsync cap w = some t) : IsQueue cap t := by
  simp only [StdinRing.writerStep] at h
  split at h
  · rename_i hclose
    obtain ⟨hhistory, hclosed, hclose', htaking⟩ := putStep_same h
    have hreader := putStep_reader h
    cases hw.phase with
    | writing hopen _ accepted =>
      have hpending := putStep_pending hw.sound hopen hok h
      refine ⟨ht, .writing (hclosed.trans hopen) (hclose'.trans hclose) ?_,
        hw.seesEnd_fed (fun hone => ?_) hreader⟩
      · rwa [hhistory, htaking, hpending]
      · rw [hopen] at hone
        cases hone
    | closing _ hstore _ _ =>
      rw [hclose] at hstore
      cases hstore
    | closed hone hput accepted =>
      obtain ⟨hdormant, hring⟩ := putStep_dormant hone hput h
      refine ⟨ht, .closed (hring ▸ hone) hdormant ?_, hw.seesEnd_fed (fun _ => ?_) hreader⟩
      · rwa [hhistory, htaking, hring]
      · exact ⟨hring ▸ hone, by rw [hring]⟩
  · rename_i hbusy
    have hreader := (closeStep_fed cap h).2.2.2
    cases hw.phase with
    | writing _ hidle _ => exact absurd hidle hbusy
    | closing hopen hstore hput accepted =>
      simp only [closeStep, hstore] at h
      cases h
      refine ⟨ht, .closed rfl (.inl hput) ?_, hw.seesEnd_fed (fun _ => ⟨rfl, rfl⟩) hreader⟩
      exact accepted
    | closed hone hput accepted =>
      cases hclose : w.writer.close <;> simp only [closeStep, hclose] at h <;> cases h
      · exact ⟨ht, .closed rfl hput accepted, hw.seesEnd_fed (fun _ => ⟨rfl, rfl⟩) hreader⟩
      · exact ⟨ht, .closed hone hput accepted, hw.seesEnd_fed (fun _ => ⟨hone, rfl⟩) hreader⟩
      · refine ⟨ht, .closed hone hput ?_, hw.seesEnd_fed (fun _ => ⟨hone, rfl⟩) hreader⟩
        rwa [Reader.taking_notified]

/-- What a step of the reader's thread does to the queue: nothing, an answer, or the end. -/
inductive ReadMove (cap : Capacity) (w t : World) : Prop where
  | none (history : t.history = w.history)
      (kept : t.reader.pc.taking ++ t.ring.contents cap =
        w.reader.pc.taking ++ w.ring.contents cap)
  | answer (history : t.history = w.history ++ [.take w.reader.pc.taking])
      (taking : t.reader.pc.taking = []) (ring : t.ring = w.ring)
  | eof (history : t.history = w.history ++ [.eof]) (isClosed : w.ring.closed = 1)
      (before : w.reader.pc.taking = []) (after : t.reader.pc.taking = [])
      (ring : t.ring = w.ring) (empty : w.ring.contents cap = [])

@[simp] theorem Frame.taking_null (frame : Frame) : frame.null.taking = [] := by
  cases frame <;> rfl

theorem Frame.null_seesEnd (frame : Frame) (r : Ring) : frame.null.SeesEnd r := by
  cases frame <;> trivial

theorem readerStep_move (hw : IsQueue cap w)
    (h : readerStep cap w = some t) : ReadMove cap w t ∧ t.reader.pc.SeesEnd t.ring := by
  have hok := hw.sound.pc
  have hend := hw.seesEnd
  cases hpc : w.reader.pc with
  | idle | parked _ _ => simp [readerStep, hpc] at h
  | sizeWrite | sizeRead _ | signal _ | countWrite _ _ | read _ _ | watchSignal
  | watchWrite _ =>
    simp only [readerStep, hpc] at h
    cases h
    exact ⟨.none rfl (by rw [hpc]; rfl), trivial⟩
  | countRead _ _ _ | wait _ _ | watchRead _ _ | watchClosed _ | watchWait _ =>
    simp only [readerStep, hpc] at h
    split at h <;> cases h <;> exact ⟨.none rfl (by rw [hpc]; rfl), trivial⟩
  | closed frame =>
    simp only [readerStep, hpc] at h
    split at h
    · rename_i hone
      cases h
      exact ⟨.none rfl (by rw [hpc]; rfl), hone⟩
    · cases h
      refine ⟨.none rfl ?_, frame.null_seesEnd _⟩
      rw [hpc, frame.taking_null]
      rfl
  | leftWrite frame =>
    simp only [readerStep, hpc] at h
    cases h
    rw [hpc] at hend
    exact ⟨.none rfl (by rw [hpc]; rfl), hend, rfl⟩
  | leftRead frame write =>
    simp only [readerStep, hpc] at h
    rw [hpc] at hend
    split at h
    · rename_i hempty
      cases h
      refine ⟨.eof rfl hend.1 (by rw [hpc]; rfl) rfl rfl ?_, trivial⟩
      rw [hend.2] at hempty
      exact eq_nil_of_length_eq_zero (by simpa [Ring.size] using hempty)
    · cases h
      refine ⟨.none rfl ?_, frame.null_seesEnd _⟩
      rw [hpc, frame.taking_null]
      rfl
  | copy frame count read into =>
    simp only [readerStep, hpc] at h
    rw [hpc] at hok
    obtain ⟨hpos, hcount, rfl, hlen, hinto⟩ := hok
    split at h
    · cases h
      exact ⟨.none rfl (by rw [hpc]; rfl), trivial⟩
    · cases h
      have hall : into.length = count := by omega
      refine ⟨.none rfl ?_, trivial⟩
      rw [hpc, Ring.contents_read cap hcount, ← hall]
      simp only [Pc.taking, nil_append]
      conv_lhs => rw [hinto]
      rw [length_take_of_le (by simpa [hall] using hcount), take_append_drop]
  | notify into =>
    simp only [readerStep, hpc] at h
    cases h
    exact ⟨.answer (by rw [hpc]; rfl) rfl rfl, trivial⟩

theorem Writer.notified_same (writer : Writer) :
    writer.notified.pending = writer.pending ∧ writer.notified.close = writer.close ∧
      (writer.put.Dormant → writer.notified.put = writer.put) := by
  unfold Writer.notified
  cases hput : writer.put with
  | parked job readRaw =>
    refine ⟨by simp [Writer.pending, hput, Put.pending], rfl, ?_⟩
    rintro (h | ⟨bytes, h⟩) <;> cases h
  | _ => exact ⟨rfl, rfl, fun _ => hput⟩

theorem IsQueue.readerStep (hw : IsQueue cap w) (ht : Sound cap t)
    (h : readerStep cap w = some t) : IsQueue cap t := by
  obtain ⟨hmove, hend⟩ := readerStep_move hw h
  obtain ⟨hdrained, -, hwriter⟩ := readerStep_drained hw.sound h
  have hclosed := hdrained.closed
  have hpending : t.writer.pending = w.writer.pending := by
    rcases hwriter with heq | heq
    · rw [heq]
    · rw [heq, w.writer.notified_same.1]
  have hclose : t.writer.close = w.writer.close := by
    rcases hwriter with heq | heq
    · rw [heq]
    · rw [heq, w.writer.notified_same.2.1]
  have hdormant : w.writer.put.Dormant → t.writer.put = w.writer.put := by
    intro hput
    rcases hwriter with heq | heq
    · rw [heq]
    · rw [heq, w.writer.notified_same.2.2 hput]
  refine ⟨ht, ?_, hend⟩
  cases hw.phase with
  | writing hopen hidle accepted =>
    refine .writing (hclosed.trans hopen) (hclose.trans hidle) ?_
    cases hmove with
    | none hhistory hkept =>
      rw [hhistory, hpending, ← append_assoc, hkept, append_assoc]
      exact accepted
    | answer hhistory htaking hring =>
      rw [hhistory, hpending, htaking, hring]
      exact accepted.take
    | eof _ hone _ _ _ _ =>
      rw [hopen] at hone
      cases hone
  | closing hopen hstore hput accepted =>
    refine .closing (hclosed.trans hopen) (hclose.trans hstore)
      ((hdormant (.inl hput)).trans hput) ?_
    cases hmove with
    | none hhistory hkept =>
      rw [hhistory, hkept]
      exact accepted
    | answer hhistory htaking hring =>
      rw [hhistory, htaking, hring]
      exact accepted.take
    | eof _ hone _ _ _ _ =>
      rw [hopen] at hone
      cases hone
  | closed hone hput accepted =>
    refine .closed (hclosed.trans hone) ((hdormant hput).symm ▸ hput) ?_
    cases hmove with
    | none hhistory hkept =>
      rw [hhistory, hkept]
      exact accepted
    | answer hhistory htaking hring =>
      rw [hhistory, htaking, hring]
      exact accepted.take
    | eof hhistory _ hbefore hafter hring hempty =>
      rw [hbefore, hempty] at accepted
      rw [hhistory, hafter, hring, hempty]
      exact accepted.eof

theorem IsQueue.write {bytes : List UInt8} (hw : IsQueue cap w) (ht : Sound cap t)
    (h : StdinRing.step waitsAsync cap w (.write bytes) = some t) : IsQueue cap t := by
  simp only [StdinRing.step] at h
  split at h
  · rename_i hfree
    cases h
    refine ⟨ht, ?_, hw.seesEnd⟩
    cases hw.phase with
    | writing hopen hidle accepted =>
      have hpending : (w.write bytes).writer.pending = w.writer.pending ++ bytes := by
        simp [World.write, Writer.pending]
      refine .writing hopen hidle ?_
      rw [hpending, ← append_assoc, ← append_assoc]
      rw [← append_assoc] at accepted
      exact accepted.write bytes
    | closing _ hstore _ _ => simp [Writer.free, hstore] at hfree
    | closed hone hput accepted => exact .closed hone hput (accepted.writeClosed bytes)
  · cases h

theorem IsQueue.close (hw : IsQueue cap w) (hok : Orderly waitsAsync cap w .close)
    (ht : Sound cap t) (h : StdinRing.step waitsAsync cap w .close = some t) : IsQueue cap t := by
  simp only [StdinRing.step] at h
  split at h
  · rename_i hfree
    cases h
    refine ⟨ht, ?_, hw.seesEnd⟩
    cases hw.phase with
    | writing hopen hidle accepted =>
      rcases hok with hone | hpending
      · rw [hopen] at hone
        cases hone
      · have hput : w.writer.put.pending = [] := (append_eq_nil_iff.1 hpending).1
        have hsuspended : w.writer.put.suspended = true := by
          simp only [Writer.free, Bool.and_eq_true] at hfree
          exact hfree.2
        rw [hpending, append_nil] at accepted
        exact .closing hopen rfl (hw.sound.put.pending_ne_nil hsuspended hput) accepted.close
    | closing _ hstore _ _ => simp [Writer.free, hstore] at hfree
    | closed hone hput accepted => exact .closed hone hput accepted.close
  · cases h

theorem IsQueue.call {c : ReadCall} (hw : IsQueue cap w) (ht : Sound cap t)
    (h : StdinRing.step waitsAsync cap w (.call c) = some t) : IsQueue cap t := by
  simp only [StdinRing.step] at h
  split at h
  · rename_i hfree
    cases h
    have hpc : w.reader.pc.taking = [] := by
      cases hpc : w.reader.pc <;> simp_all [Pc.free, Pc.taking]
    have hentry : c.entry.taking = [] := by cases c <;> rfl
    refine ⟨ht, ?_, by cases c <;> trivial⟩
    cases hw.phase with
    | writing hopen hidle accepted =>
      exact .writing hopen hidle (by rwa [hpc, ← hentry] at accepted)
    | closing hopen hstore hput accepted =>
      exact .closing hopen hstore hput (by rwa [hpc, ← hentry] at accepted)
    | closed hone hput accepted =>
      exact .closed hone hput (by rwa [hpc, ← hentry] at accepted)
  · cases h

theorem IsQueue.step {a : Action} (hw : IsQueue cap w) (hok : Orderly waitsAsync cap w a)
    (h : StdinRing.step waitsAsync cap w a = some t) : IsQueue cap t := by
  have ht := hw.sound.step h
  cases a with
  | write bytes => exact hw.write ht h
  | close => exact hw.close hok ht h
  | writer => exact hw.writerStep hok ht h
  | call c => exact hw.call ht h
  | reader => exact hw.readerStep ht h

/-- From an empty open ring, whatever its indices, every interleaving whose steps are
orderly answers the bytes written in their order, and the end when all are taken. -/
theorem lossless_of_run (waitsAsync : Bool) (cap : Capacity) (index signal : Word)
    (data : ℕ → UInt8) (as : List Action) (t : World)
    (hok : Machine.Meets (step waitsAsync cap) (Orderly waitsAsync cap)
      (World.new index signal data) as)
    (h : Machine.run (step waitsAsync cap) (World.new index signal data) as = some t) :
    Fifo.Lossless t.history := by
  have hqueue : IsQueue cap t := Machine.invariant_of_meets
    (fun _ _ _ hw hok h => hw.step hok h) (isQueue_new index signal data) hok h
  cases hqueue.phase with
  | writing _ _ accepted => exact accepted.lossless
  | closing _ _ _ accepted => exact accepted.lossless
  | closed _ _ accepted => exact accepted.lossless

def takeToEnd : List Action :=
  .write [7] :: List.replicate 8 .writer ++ .close :: List.replicate 3 .writer ++
    .call (.take 1) :: List.replicate 6 .reader ++ .call (.take 1) :: List.replicate 5 .reader

/-- The index wraps to 0 with the byte. -/
theorem lossless_of_run_wrap : ∃ t, Machine.run (step true ⟨0, by decide⟩)
      (World.new (-1) 0 fun _ => 0) takeToEnd = some t ∧
    t.history = [.write [7], .close, .take [7], .eof] ∧ Fifo.Lossless t.history :=
  ⟨_, rfl, rfl, lossless_of_run true ⟨0, by decide⟩ (-1) 0 (fun _ => 0) takeToEnd _
    (by decide +kernel) rfl⟩

/-- `close` sets CLOSED while an earlier write is still queued: the reader is told the
end, and the write, when its turn comes, is refused. -/
theorem close_overtakes_write : ∃ t, Machine.run (step true ⟨0, by decide⟩)
      (World.new 0 0 fun _ => 0)
      (.write [7] :: .close :: List.replicate 3 .writer ++
        .call (.take 1) :: List.replicate 5 .reader ++ List.replicate 2 .writer) = some t ∧
    t.history = [.write [7], .close, .eof] ∧ ¬ Fifo.Lossless t.history := by
  refine ⟨_, rfl, rfl, fun h => ?_⟩
  have hall := (h.complete [.write [7], .close] [] rfl).2
  cases hall

end StdinRing

end Tabnode
